import LoopDeps.Proofs.Graph.Hooking
set_option autoImplicit false

/- Nodes that come and go. A node comes under the next id and without edges, and goes when no edge
   refers to it any more. -/
namespace LoopDeps.Graph

def Bare (n : Node) : Prop := ∀ side, n.listing side = []

theorem get_insert_value_node (g : Graph) (n : Node) (key : NodeId) :
    (g.withFresh.insertValueNode n).nodes.get? key = if key = n.id then some n else g.nodes.get? key :=
  Table.get_insert g.nodes n.id key n

theorem get_insert_chain_node (g : Graph) (n : Node) (key : NodeId) :
    (g.withFresh.insertChainNode n).nodes.get? key = if key = n.id then some n else g.nodes.get? key :=
  Table.get_insert g.nodes n.id key n

theorem present_ne (g : Graph) {absent key : NodeId} {n : Node} (free : g.nodes.get? absent = none)
    (found : g.nodes.get? key = some n) : key ≠ absent := by
  intro same
  rw [same, free] at found
  cases found

theorem hooked_fresh (g next : Graph) (n : Node) (loose : List (EdgeId × End)) (hooked : g.Hooked loose)
    (nodes : ∀ key, next.nodes.get? key = if key = n.id then some n else g.nodes.get? key)
    (edges : next.edges = g.edges) (lastEdge : next.lastEdge = g.lastEdge) (absent : g.nodes.get? n.id = none)
    (bare : Bare n) : next.Hooked loose := by
  refine ⟨edges ▸ hooked.edgeKeys, edges ▸ lastEdge ▸ hooked.edgeBound, ?_, ?_, edges ▸ hooked.known⟩
  · intro side id e found
    obtain ⟨m, node, times⟩ := hooked.listed side id e (edges ▸ found)
    exact ⟨m, by rw [nodes, if_neg (present_ne g absent node), node], times⟩
  · intro side key m id found member
    rw [nodes] at found
    split at found
    · cases found
      rw [bare side] at member
      cases member
    · rw [edges]
      exact hooked.recorded side key m id found member

theorem fresh_keys (g next : Graph) (n : Node) (indexed : g.Indexed) (fresh : n.id = g.lastNode + 1)
    (nodes : ∀ key, next.nodes.get? key = if key = n.id then some n else g.nodes.get? key)
    (key : NodeId) (m : Node) (found : next.nodes.get? key = some m) :
    m.id = key ∧ key ≤ g.lastNode + 1 := by
  rw [nodes] at found
  split at found
  · rename_i same
    cases found
    exact ⟨same.symm, Nat.le_of_eq (same.trans fresh)⟩
  · exact ⟨indexed.nodeKeys key m found, Nat.le_succ_of_le (indexed.nodeBound key m found)⟩

theorem insert_value_node_well_formed (g : Graph) (n : Node) (well : g.WellFormed)
    (fresh : n.id = g.lastNode + 1) (plain : n.role = none) (bare : Bare n) :
    (g.withFresh.insertValueNode n).WellFormed := by
  have absent : g.nodes.get? n.id = none := fresh ▸ no_fresh_node g well.indexed
  have nodes := get_insert_value_node g n
  have keys := fresh_keys g _ n well.indexed fresh nodes
  have hooked := hooked_fresh g _ n [] (hooked_of_well_formed g well) nodes rfl rfl absent bare
  refine ⟨(mirrored_iff_none_loose _ [] hooked).mpr rfl,
    ⟨fun key m found => (keys key m found).1, fun key m found => (keys key m found).2, ?_,
      well.indexed.chainOnce, ?_⟩, well.edgeBound⟩
  · intro value key held
    have held : (g.byValue.insert n.value n.id).get? value = some key := held
    rw [Table.get_insert] at held
    split at held
    · rename_i same
      cases held
      exact ⟨n, by rw [nodes, if_pos rfl], same.symm, plain⟩
    · obtain ⟨m, node, sameValue, role⟩ := well.indexed.valueNodes value key held
      exact ⟨m, by rw [nodes, if_neg (present_ne g absent node), node], sameValue, role⟩
  · intro key
    show key ∈ g.chain ↔ _
    rw [well.indexed.chainNodes key, nodes]
    by_cases same : key = n.id
    · rw [same, absent, if_pos rfl]
      simp [plain]
    · rw [if_neg same]

theorem insert_chain_node_well_formed (g : Graph) (n : Node) (well : g.WellFormed)
    (fresh : n.id = g.lastNode + 1) (part : n.role ≠ none) (bare : Bare n) :
    (g.withFresh.insertChainNode n).WellFormed := by
  have absent : g.nodes.get? n.id = none := fresh ▸ no_fresh_node g well.indexed
  have nodes := get_insert_chain_node g n
  have keys := fresh_keys g _ n well.indexed fresh nodes
  have unlisted : n.id ∉ g.chain := by
    intro member
    obtain ⟨m, node, _⟩ := (well.indexed.chainNodes n.id).mp member
    exact present_ne g absent node rfl
  have hooked := hooked_fresh g _ n [] (hooked_of_well_formed g well) nodes rfl rfl absent bare
  refine ⟨(mirrored_iff_none_loose _ [] hooked).mpr rfl,
    ⟨fun key m found => (keys key m found).1, fun key m found => (keys key m found).2, ?_, ?_, ?_⟩,
    well.edgeBound⟩
  · intro value key held
    obtain ⟨m, node, sameValue, role⟩ := well.indexed.valueNodes value key held
    exact ⟨m, by rw [nodes, if_neg (present_ne g absent node), node], sameValue, role⟩
  · show (g.chain ++ [n.id]).Nodup
    refine List.nodup_append.mpr ⟨well.indexed.chainOnce, by simp, ?_⟩
    intro key member last here
    rw [List.mem_singleton.mp here]
    exact fun same => unlisted (same ▸ member)
  · intro key
    show key ∈ g.chain ++ [n.id] ↔ _
    rw [List.mem_append, List.mem_singleton, well.indexed.chainNodes key, nodes]
    by_cases same : key = n.id
    · rw [same, absent, if_pos rfl]
      simp [part]
    · rw [if_neg same]
      simp [same]

theorem get_remove_node (g : Graph) (id key : NodeId) :
    (g.removeNode id).nodes.get? key = if key = id then none else g.nodes.get? key := by
  unfold removeNode
  cases held : g.nodes.get? id with
  | none =>
      by_cases same : key = id
      · rw [if_pos same, same]
        exact held
      · rw [if_neg same]
  | some n => exact Table.get_erase g.nodes id key

theorem remove_node_frame (g : Graph) (id : NodeId) :
    (g.removeNode id).edges = g.edges ∧ (g.removeNode id).chain = g.chain ∧
      (g.removeNode id).lastNode = g.lastNode ∧ (g.removeNode id).lastEdge = g.lastEdge := by
  unfold removeNode
  cases g.nodes.get? id <;> exact ⟨rfl, rfl, rfl, rfl⟩

-- A value whose node goes has no node any more.
theorem by_value_remove_node (g : Graph) (id : NodeId) (value key : Nat) (indexed : g.Indexed)
    (held : (g.removeNode id).byValue.get? value = some key) :
    g.byValue.get? value = some key ∧ key ≠ id := by
  cases node : g.nodes.get? id with
  | none =>
      simp only [removeNode, node] at held
      obtain ⟨m, found, _⟩ := indexed.valueNodes value key held
      exact ⟨held, present_ne g node found⟩
  | some n =>
      simp only [removeNode, node] at held
      by_cases stands : g.byValue.get? n.value = some id
      · rw [if_pos stands, Table.get_erase] at held
        split at held
        · cases held
        · rename_i other
          refine ⟨held, fun same => other ?_⟩
          obtain ⟨m, found, sameValue, _⟩ := indexed.valueNodes value key held
          rw [same, node] at found
          cases found
          exact sameValue.symm
      · rw [if_neg stands] at held
        refine ⟨held, fun same => stands ?_⟩
        obtain ⟨m, found, sameValue, _⟩ := indexed.valueNodes value key held
        rw [same, node] at found
        cases found
        rw [sameValue, held, same]

theorem remove_node_well_formed (g : Graph) (id : NodeId) (well : g.WellFormed)
    (loose : ∀ n, g.nodes.get? id = some n → n.role = none ∧ Bare n) : (g.removeNode id).WellFormed := by
  obtain ⟨edges, chain, lastNode, lastEdge⟩ := remove_node_frame g id
  have kept : ∀ key n, (g.removeNode id).nodes.get? key = some n ↔ g.nodes.get? key = some n ∧ key ≠ id := by
    intro key n
    rw [get_remove_node]
    by_cases same : key = id <;> simp [same]
  refine ⟨⟨?_, ?_, ?_⟩, ⟨?_, ?_, ?_, chain ▸ well.indexed.chainOnce, ?_⟩, ?_⟩
  · exact fun key e found => well.mirrored.edgeKeys key e (edges ▸ found)
  · intro side key e found
    obtain ⟨n, node, once⟩ := well.mirrored.listed side key e (edges ▸ found)
    refine ⟨n, (kept _ n).mpr ⟨node, fun same => ?_⟩, once⟩
    rw [(loose n (same ▸ node)).2 side] at once
    cases once
  · intro side key n listed found member
    rw [edges]
    exact well.mirrored.recorded side key n listed ((kept key n).mp found).1 member
  · exact fun key n found => well.indexed.nodeKeys key n ((kept key n).mp found).1
  · exact fun key n found => lastNode ▸ well.indexed.nodeBound key n ((kept key n).mp found).1
  · intro value key held
    obtain ⟨before, other⟩ := by_value_remove_node g id value key well.indexed held
    obtain ⟨n, node, sameValue, role⟩ := well.indexed.valueNodes value key before
    exact ⟨n, (kept key n).mpr ⟨node, other⟩, sameValue, role⟩
  · intro key
    rw [chain, well.indexed.chainNodes key]
    constructor
    · rintro ⟨n, node, role⟩
      exact ⟨n, (kept key n).mpr ⟨node, fun same => role (loose n (same ▸ node)).1⟩, role⟩
    · rintro ⟨n, node, role⟩
      exact ⟨n, ((kept key n).mp node).1, role⟩
  · exact fun key e found => lastEdge ▸ well.edgeBound key e (edges ▸ found)

-- A node that is no part of a chain and has no edge left.
def Loose (g : Graph) (id : NodeId) : Prop := ∀ n, g.nodes.get? id = some n → n.role = none ∧ Bare n

theorem fold_remove_frame (ids : List NodeId) (g : Graph) :
    (ids.foldl removeNode g).edges = g.edges ∧ (ids.foldl removeNode g).chain = g.chain := by
  induction ids generalizing g with
  | nil => exact ⟨rfl, rfl⟩
  | cons id rest ih =>
      have later := ih (g.removeNode id)
      have here := remove_node_frame g id
      exact ⟨later.1.trans here.1, later.2.trans here.2.1⟩

theorem get_fold_remove (ids : List NodeId) (g : Graph) (key : NodeId) :
    (ids.foldl removeNode g).nodes.get? key = if key ∈ ids then none else g.nodes.get? key := by
  induction ids generalizing g with
  | nil => simp
  | cons id rest ih =>
      rw [List.foldl_cons, ih, get_remove_node]
      by_cases later : key ∈ rest
      · simp [later]
      · by_cases here : key = id <;> simp [later, here]

theorem fold_remove_well_formed (ids : List NodeId) (g : Graph) (well : g.WellFormed)
    (loose : ∀ id ∈ ids, g.Loose id) : (ids.foldl removeNode g).WellFormed := by
  induction ids generalizing g with
  | nil => exact well
  | cons id rest ih =>
      apply ih (g.removeNode id) (remove_node_well_formed g id well (loose id List.mem_cons_self))
      intro other member n found
      rw [get_remove_node] at found
      split at found
      · cases found
      · exact loose other (List.mem_cons_of_mem _ member) n found

theorem fold_remove_size (ids : List NodeId) (g : Graph) (once : ids.Nodup)
    (present : ∀ id ∈ ids, ∃ n, g.nodes.get? id = some n) :
    (ids.foldl removeNode g).size + ids.length = g.size := by
  induction ids generalizing g with
  | nil => rfl
  | cons id rest ih =>
      obtain ⟨absent, onceRest⟩ := List.nodup_cons.mp once
      obtain ⟨n, node⟩ := present id List.mem_cons_self
      have removed : (g.removeNode id).size + 1 = g.size := by
        simp only [removeNode, node]
        exact Table.size_erase g.nodes id (Table.mem_keys.mpr (by rw [node]; rfl))
      have later := ih (g.removeNode id) onceRest (by
        intro other member
        obtain ⟨m, found⟩ := present other (List.mem_cons_of_mem _ member)
        have different : other ≠ id := fun same => absent (same ▸ member)
        exact ⟨m, by rw [get_remove_node, if_neg different, found]⟩)
      rw [List.foldl_cons, List.length_cons]
      omega

-- Loose nodes are in no chain, so the chain stays.
theorem remove_nodes_eq_fold (ids : List NodeId) (g : Graph) (well : g.WellFormed)
    (loose : ∀ id ∈ ids, g.Loose id) : g.removeNodes ids = ids.foldl removeNode g := by
  have kept : (ids.foldl removeNode g).chain.filter (fun id => !ids.contains id) =
      (ids.foldl removeNode g).chain := by
    rw [(fold_remove_frame ids g).2, List.filter_eq_self]
    intro id member
    obtain ⟨n, node, role⟩ := (well.indexed.chainNodes id).mp member
    have unlisted : id ∉ ids := fun listed => role (loose id listed n node).1
    simpa using unlisted
  rw [removeNodes, kept]

end LoopDeps.Graph
