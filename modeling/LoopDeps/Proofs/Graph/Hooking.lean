import LoopDeps.Proofs.Graph.Changes
set_option autoImplicit false

/- Where the edges of a graph are listed while it changes. Some of their ends may be loose, in no listing at all: half of a
   move loosens an end and the other half hangs it up again. A graph is in order when no end is loose. -/
namespace LoopDeps.Graph

-- An edge taken off the listing of a node, as the first half of a move.
def unhooked (g : Graph) (side : End) (id : EdgeId) (key : NodeId) : Graph :=
  g.modifyNode key fun n => n.relisted ((n.listing side).filter (· != id)) side

-- The second half.
def hung (g : Graph) (side : End) (id : EdgeId) (key : NodeId) : Graph :=
  let listed := g.modifyNode key fun n => n.relisted (n.listing side ++ [id]) side
  { listed with edges := listed.edges.modify id fun e => e.moved key side }

theorem get_unhooked (g : Graph) (side : End) (id : EdgeId) (old key : NodeId) :
    (g.unhooked side id old).nodes.get? key = (g.nodes.get? key).map fun n =>
      n.relisted (if key = old then (n.listing side).filter (· != id) else n.listing side) side := by
  refine (get_modify_node g old key _).trans (congrArg (Option.map · _) (funext fun n => ?_))
  split
  · rfl
  · cases side <;> rfl

theorem get_hung_node (g : Graph) (side : End) (id : EdgeId) (new key : NodeId) :
    (g.hung side id new).nodes.get? key = (g.nodes.get? key).map fun n =>
      n.relisted (if key = new then n.listing side ++ [id] else n.listing side) side := by
  refine (get_modify_node g new key _).trans (congrArg (Option.map · _) (funext fun n => ?_))
  split
  · rfl
  · cases side <;> rfl

theorem get_hung_edge (g : Graph) (side : End) (id : EdgeId) (new : NodeId) (key : EdgeId) :
    (g.hung side id new).edges.get? key =
      if key = id then (g.edges.get? key).map fun e => e.moved new side else g.edges.get? key :=
  Table.get_modify g.edges id key _

-- A move is both halves.
theorem with_end_halves (g : Graph) (side : End) (id : EdgeId) (old new : NodeId) :
    (g.unhooked side id old).hung side id new = g.withEnd side id old new := rfl

-- Every edge is listed once at each of its ends, but for those that are loose, and nowhere else.
structure Hooked (g : Graph) (loose : List (EdgeId × End)) : Prop where
  edgeKeys : ∀ id e, g.edges.get? id = some e → e.id = id
  edgeBound : ∀ id e, g.edges.get? id = some e → id ≤ g.lastEdge
  listed : ∀ side id e, g.edges.get? id = some e → ∃ n, g.nodes.get? (e.endAt side) = some n ∧
    (n.listing side).count id = if (id, side) ∈ loose then 0 else 1
  recorded : ∀ side key n id, g.nodes.get? key = some n → id ∈ n.listing side →
    ∃ e, g.edges.get? id = some e ∧ e.endAt side = key
  known : ∀ entry ∈ loose, ∃ e, g.edges.get? entry.1 = some e

theorem mirrored_iff_none_loose (g : Graph) (loose : List (EdgeId × End)) (hooked : g.Hooked loose) :
    g.Mirrored ↔ loose = [] := by
  constructor
  · intro mirrored
    refine List.eq_nil_iff_forall_not_mem.mpr fun (id, side) astray => ?_
    obtain ⟨e, found⟩ := hooked.known (id, side) astray
    obtain ⟨n, node, once⟩ := mirrored.listed side id e found
    obtain ⟨m, same, never⟩ := hooked.listed side id e found
    cases Option.some.inj (node.symm.trans same)
    rw [if_pos astray, once] at never
    cases never
  · rintro rfl
    exact ⟨hooked.edgeKeys, fun side id e found => by simpa using hooked.listed side id e found, hooked.recorded⟩

theorem hooked_of_well_formed (g : Graph) (well : g.WellFormed) : g.Hooked [] := by
  refine ⟨well.mirrored.edgeKeys, well.edgeBound, ?_, well.mirrored.recorded, fun _ member => nomatch member⟩
  exact fun side id e found => by simpa using well.mirrored.listed side id e found

theorem not_listed_unrecorded (g : Graph) (loose : List (EdgeId × End)) (hooked : g.Hooked loose) (side : End) (key : NodeId)
    (n : Node) (id : EdgeId) (node : g.nodes.get? key = some n) (absent : g.edges.get? id = none) : id ∉ n.listing side := by
  intro member
  obtain ⟨e, found, _⟩ := hooked.recorded side key n id node member
  rw [absent] at found
  cases found

theorem hooked_attach (g : Graph) (source target : NodeId) (kind : Dependence) (weight : Float)
    (loose : List (EdgeId × End)) (hooked : g.Hooked loose) (sourceNode : ∃ n, g.nodes.get? source = some n)
    (targetNode : ∃ n, g.nodes.get? target = some n) : (Edit.attach g source target kind weight).Hooked loose := by
  have below : ∀ id e, g.edges.get? id = some e → id ≠ g.lastEdge + 1 := fun id e found same =>
    Nat.not_succ_le_self _ (same ▸ hooked.edgeBound id e found)
  have absent : g.edges.get? (g.lastEdge + 1) = none :=
    Option.eq_none_iff_forall_ne_some.mpr fun e found => below _ e found rfl
  have edges := get_attach_edge g source target kind weight
  have nodes := get_attach_node g source target kind weight
  refine ⟨?_, ?_, ?_, ?_, ?_⟩
  · intro id e found
    rw [edges] at found
    split at found
    · rename_i fresh
      cases found
      exact fresh.symm
    · exact hooked.edgeKeys id e found
  · intro id e found
    rw [edges] at found
    show id ≤ g.lastEdge + 1
    split at found
    · rename_i fresh
      exact Nat.le_of_eq fresh
    · exact Nat.le_succ_of_le (hooked.edgeBound id e found)
  · intro side id e found
    rw [edges] at found
    by_cases fresh : id = g.lastEdge + 1
    · rw [if_pos fresh] at found
      cases found
      obtain ⟨n, node⟩ : ∃ n, g.nodes.get? ((g.newEdge source target kind weight).endAt side) = some n := by
        cases side
        · exact sourceNode
        · exact targetNode
      have held : (id, side) ∉ loose := by
        intro astray
        obtain ⟨e, old⟩ := hooked.known _ astray
        exact below id e old fresh
      refine ⟨_, by rw [nodes, node]; rfl, ?_⟩
      have unlisted := not_listed_unrecorded g loose hooked side _ n _ node absent
      rw [Node.listing_joined, if_pos rfl, if_neg held, List.count_append, fresh, List.count_eq_zero.mpr unlisted]
      simp [newEdge]
    · rw [if_neg fresh] at found
      obtain ⟨n, node, times⟩ := hooked.listed side id e found
      refine ⟨_, by rw [nodes, node]; rfl, ?_⟩
      rw [Node.count_joined_other n _ _ side id (Ne.symm fresh), times]
  · intro side key m id found member
    rw [nodes] at found
    obtain ⟨n, node, rfl⟩ := Option.map_eq_some_iff.mp found
    rw [Node.listing_joined, List.mem_append] at member
    rw [edges]
    rcases member with before | joined
    · obtain ⟨e, old, there⟩ := hooked.recorded side key n id node before
      exact ⟨e, by rw [if_neg (below id e old), old], there⟩
    · split at joined
      · rename_i here
        cases List.mem_singleton.mp joined
        exact ⟨_, if_pos rfl, here.symm⟩
      · cases joined
  · intro entry astray
    obtain ⟨e, old⟩ := hooked.known entry astray
    exact ⟨e, by rw [edges, if_neg (below _ e old), old]⟩

-- The end may have been loose before.
theorem hooked_unhooked (g : Graph) (loose : List (EdgeId × End)) (hooked : g.Hooked loose) (side : End) (id : EdgeId)
    (e : Edge) (found : g.edges.get? id = some e) :
    (g.unhooked side id (e.endAt side)).Hooked ((id, side) :: loose) := by
  refine ⟨hooked.edgeKeys, hooked.edgeBound, ?_, ?_, ?_⟩
  · intro place key o read
    obtain ⟨n, node, times⟩ := hooked.listed place key o read
    refine ⟨_, by rw [get_unhooked, node]; rfl, ?_⟩
    rw [listing_relisted]
    by_cases there : place = side
    · subst there
      rw [if_pos rfl]
      by_cases here : key = id
      · subst here
        cases Option.some.inj (found.symm.trans read)
        rw [if_pos rfl, if_pos List.mem_cons_self]
        exact List.count_eq_zero.mpr (by simp)
      · have same : (if o.endAt place = e.endAt place then (n.listing place).filter (· != id) else n.listing place).count key =
            (n.listing place).count key := by
          split
          · exact List.count_filter (by simpa using here)
          · rfl
        rw [same, times]
        simp [here]
    · rw [if_neg there, times]
      simp [there]
  · intro place key m listed read member
    rw [get_unhooked] at read
    obtain ⟨n, node, rfl⟩ := Option.map_eq_some_iff.mp read
    rw [listing_relisted] at member
    refine hooked.recorded place key n listed node ?_
    split at member
    · rename_i there
      subst there
      split at member
      · exact (List.mem_filter.mp member).1
      · exact member
    · exact member
  · intro entry astray
    rcases List.mem_cons.mp astray with rfl | before
    · exact ⟨e, found⟩
    · exact hooked.known entry before

theorem loose_unlisted (g : Graph) (loose : List (EdgeId × End)) (hooked : g.Hooked loose) (side : End) (id : EdgeId)
    (astray : (id, side) ∈ loose) (key : NodeId) (n : Node) (node : g.nodes.get? key = some n) : id ∉ n.listing side := by
  intro member
  obtain ⟨e, found, there⟩ := hooked.recorded side key n id node member
  obtain ⟨m, same, never⟩ := hooked.listed side id e found
  cases Option.some.inj (node.symm.trans (there ▸ same))
  rw [if_pos astray] at never
  exact List.count_eq_zero.mp never member

theorem hooked_hung (g : Graph) (loose : List (EdgeId × End)) (hooked : g.Hooked loose) (side : End) (id : EdgeId)
    (astray : (id, side) ∈ loose) (new : NodeId) (present : ∃ n, g.nodes.get? new = some n) :
    (g.hung side id new).Hooked (loose.filter fun entry => entry ≠ (id, side)) := by
  have kept : ∀ entry, entry ∈ loose.filter (fun entry => entry ≠ (id, side)) ↔ entry ∈ loose ∧ entry ≠ (id, side) := by
    simp
  have unlisted := loose_unlisted g loose hooked side id astray
  refine ⟨?_, ?_, ?_, ?_, ?_⟩
  · intro key moved read
    rw [get_hung_edge] at read
    split at read
    · obtain ⟨o, before, rfl⟩ := Option.map_eq_some_iff.mp read
      exact (id_moved o new side).trans (hooked.edgeKeys key o before)
    · exact hooked.edgeKeys key moved read
  · intro key moved read
    rw [get_hung_edge] at read
    split at read
    · obtain ⟨o, before, _⟩ := Option.map_eq_some_iff.mp read
      exact hooked.edgeBound key o before
    · exact hooked.edgeBound key moved read
  · intro place key moved read
    rw [get_hung_edge] at read
    by_cases here : key = id
    · subst here
      rw [if_pos rfl] at read
      obtain ⟨o, before, rfl⟩ := Option.map_eq_some_iff.mp read
      rw [end_moved]
      by_cases there : place = side
      · subst there
        obtain ⟨n, node⟩ := present
        refine ⟨_, by rw [if_pos rfl, get_hung_node, node]; rfl, ?_⟩
        rw [listing_relisted, if_pos rfl, if_pos rfl, List.count_append, List.count_eq_zero.mpr (unlisted new n node)]
        simp
      · obtain ⟨n, node, times⟩ := hooked.listed place key o before
        refine ⟨_, by rw [if_neg there, get_hung_node, node]; rfl, ?_⟩
        rw [listing_relisted, if_neg there, times]
        simp [there]
    · rw [if_neg here] at read
      obtain ⟨n, node, times⟩ := hooked.listed place key moved read
      refine ⟨_, by rw [get_hung_node, node]; rfl, ?_⟩
      have same : ((n.relisted (if moved.endAt place = new then n.listing side ++ [id] else n.listing side) side).listing
          place).count key = (n.listing place).count key := by
        rw [listing_relisted]
        split
        · rename_i there
          subst there
          split <;> simp [Ne.symm here]
        · rfl
      rw [same, times]
      simp [here]
  · intro place key m listed read member
    rw [get_hung_node] at read
    obtain ⟨n, node, rfl⟩ := Option.map_eq_some_iff.mp read
    rw [listing_relisted] at member
    rw [get_hung_edge]
    have before : listed ∈ n.listing place → ∃ o, (if listed = id then (g.edges.get? listed).map fun e => e.moved new side
        else g.edges.get? listed) = some o ∧ o.endAt place = key := by
      intro early
      obtain ⟨o, found, ends⟩ := hooked.recorded place key n listed node early
      by_cases here : listed = id
      · have apart : place ≠ side := fun there => unlisted key n node (here ▸ there ▸ early)
        exact ⟨o.moved new side, by rw [if_pos here, found]; rfl, by rw [end_moved, if_neg apart, ends]⟩
      · exact ⟨o, by rw [if_neg here, found], ends⟩
    split at member
    · rename_i there
      subst there
      split at member
      · rename_i onto
        rcases List.mem_append.mp member with early | last
        · exact before early
        · obtain ⟨e, found⟩ := hooked.known (id, place) astray
          rw [List.mem_singleton.mp last, if_pos rfl, found]
          exact ⟨_, rfl, by rw [end_moved, if_pos rfl, onto]⟩
      · exact before member
    · exact before member
  · intro entry still
    obtain ⟨o, before⟩ := hooked.known entry ((kept entry).mp still).1
    rw [get_hung_edge, before]
    split
    · exact ⟨_, rfl⟩
    · exact ⟨o, rfl⟩

theorem hooked_with_end (g : Graph) (loose : List (EdgeId × End)) (hooked : g.Hooked loose) (side : End) (id : EdgeId)
    (e : Edge) (found : g.edges.get? id = some e) (other : NodeId) (otherNode : ∃ n, g.nodes.get? other = some n) :
    (g.withEnd side id (e.endAt side) other).Hooked (loose.filter fun entry => entry ≠ (id, side)) := by
  obtain ⟨n, node⟩ := otherNode
  have still : ∃ n, (g.unhooked side id (e.endAt side)).nodes.get? other = some n :=
    ⟨_, by rw [get_unhooked, node]; rfl⟩
  have off := hooked_unhooked g loose hooked side id e found
  have on := hooked_hung _ _ off side id List.mem_cons_self other still
  rw [with_end_halves] at on
  simpa using on

theorem attach_well_formed (g : Graph) (source target : NodeId) (kind : Dependence) (weight : Float)
    (well : g.WellFormed) (sourceNode : ∃ n, g.nodes.get? source = some n)
    (targetNode : ∃ n, g.nodes.get? target = some n) :
    (Edit.attach g source target kind weight).WellFormed := by
  have hooked := hooked_attach g source target kind weight [] (hooked_of_well_formed g well) sourceNode targetNode
  refine ⟨(mirrored_iff_none_loose _ [] hooked).mpr rfl, ?_, hooked.edgeBound⟩
  exact indexed_of_changes g _ (fun key n => n.joined key (g.newEdge source target kind weight))
    well.indexed (get_attach_node g source target kind weight) (fun _ _ => rfl) rfl rfl rfl

theorem with_end_well_formed (g : Graph) (side : End) (id : EdgeId) (e : Edge) (other : NodeId)
    (well : g.WellFormed) (found : g.edges.get? id = some e)
    (otherNode : ∃ n, g.nodes.get? other = some n) :
    (g.withEnd side id (e.endAt side) other).WellFormed := by
  have hooked := hooked_with_end g [] (hooked_of_well_formed g well) side id e found other otherNode
  refine ⟨(mirrored_iff_none_loose _ [] hooked).mpr rfl, ?_, hooked.edgeBound⟩
  exact indexed_of_changes g _ _ well.indexed (get_with_end_node g side id (e.endAt side) other)
    (fun _ n => identity_relisted n _ side) rfl rfl rfl

end LoopDeps.Graph
