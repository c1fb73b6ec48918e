import LoopDeps.Proofs.Graph.Stages
set_option autoImplicit false

/- Where the parts of a finished graph come from. Each node without a role stands for an instruction of the
   body or for a value from outside, and each data edge for an operand or for a link of a chain. -/
namespace LoopDeps.Graph

open AddressChains

structure Sourced (body : Body) (g : Graph) : Prop where
  nodes : ∀ key n, g.nodes.get? key = some n → n.role = none ∧
    ((∃ position, key = position + 1 ∧ n.kind = .instruction ∧ body.ids[position]? = some n.value) ∨
      (0 < key ∧ n.kind = .external ∧ n.value ∉ body.ids))
  flows : ∀ id e, g.edges.get? id = some e → e.kind = .data →
    Takes body.func (g.valueAt e.source) (g.valueAt e.target) ∧ g.valueAt e.target ∈ body.ids

structure Traced (body : Body) (g : Graph) : Prop where
  plain : ∀ key n, g.nodes.get? key = some n → n.role = none →
    (∃ position, key = position + 1 ∧ n.kind = .instruction ∧ body.ids[position]? = some n.value) ∨
      (0 < key ∧ n.kind = .external ∧ n.value ∉ body.ids)
  parts : ∀ key n, g.nodes.get? key = some n → n.role ≠ none →
    0 < key ∧ ∃ instr, body.func.instr? n.value = some instr ∧ instr.kind = .address
  flows : ∀ id e, g.edges.get? id = some e → e.kind = .data → ChainLink g e ∨
    (Takes body.func (g.valueAt e.source) (g.valueAt e.target) ∧ g.valueAt e.target ∈ body.ids)

theorem placed_position (body : Body) (start : Graph) (placed : Placed body.instrs start) (key : NodeId) (n : Node)
    (node : start.nodes.get? key = some n) :
    n.role = none ∧ ∃ position, key = position + 1 ∧ n.kind = .instruction ∧
      body.ids[position]? = some n.value := by
  have member := Table.mem_values.mpr ⟨key, node⟩
  rw [placed.nodes] at member
  obtain ⟨position, bound, rfl⟩ := List.mem_mapIdx.mp member
  have sameKey := placed.well.indexed.nodeKeys key _ node
  refine ⟨rfl, position, sameKey.symm, rfl, ?_⟩
  rw [Body.ids, List.getElem?_map, List.getElem?_eq_getElem bound]
  rfl

theorem sourced_linked (body : Body) (start linked : Graph) (placed : Placed body.instrs start)
    (uses : List ValueId) (links : Nat) (supplied : DataLinks.Supplied body.func start uses links linked) :
    Sourced body linked := by
  have inBody : ∀ value, start.nodeOf? value = none → value ∉ body.ids := by
    intro value absent member
    obtain ⟨id, found⟩ := (placed.values value).mpr member
    rw [absent] at found
    cases found
  have old : ∀ key n, linked.nodes.get? key = some n → (∃ m, start.nodes.get? key = some m) →
      n.role = none ∧ ∃ position, key = position + 1 ∧ n.kind = .instruction ∧
        body.ids[position]? = some n.value := by
    rintro key n found ⟨m, node⟩
    obtain ⟨k, there, same⟩ := supplied.kept key m node
    cases Option.some.inj (found.symm.trans there)
    obtain ⟨_, kind, value, role⟩ := Node.same_of_unlisted same
    rw [kind, value, role]
    exact placed_position body start placed key m node
  refine ⟨?_, ?_⟩
  · intro key n found
    rcases supplied.outside key n found with before | ⟨young, external, role, absent⟩
    · exact (old key n found before).imp_right Or.inl
    · exact ⟨role, Or.inr ⟨Nat.zero_lt_of_lt young, external, inBody n.value absent⟩⟩
  · intro id e found _
    obtain ⟨_, s, t, source, target, kind, takes⟩ := supplied.flows id e found
    rw [value_at_node linked e.source s source, value_at_node linked e.target t target]
    refine ⟨takes, ?_⟩
    rcases supplied.outside e.target t target with before | ⟨_, external, _⟩
    · obtain ⟨_, position, _, _, value⟩ := old e.target t target before
      exact List.mem_of_getElem? value
    · rw [kind] at external
      cases external

theorem sourced_controlled (body : Body) (linked controlled : Graph) (sourced : Sourced body linked)
    (added : Controlled linked controlled) : Sourced body controlled := by
  have same := ControlLinks.controlled_nodes linked controlled added
  have values : ∀ key, controlled.valueAt key = linked.valueAt key := fun key => value_at_same _ _ key (same key)
  refine ⟨?_, ?_⟩
  · intro key n found
    obtain ⟨m, there, unlisted⟩ := node_of_same controlled linked key n (same key).symm found
    obtain ⟨_, kind, value, role⟩ := Node.same_of_unlisted unlisted
    rw [← kind, ← value, ← role]
    exact sourced.nodes key m there
  · intro id e found data
    rw [values, values]
    rcases ControlLinks.controlled_edges linked controlled added id e found with before | control
    · exact sourced.flows id e before data
    · rw [data] at control
      cases control

theorem traced_unfolded (body : Body) (controlled middle : Graph) (well : controlled.WellFormed)
    (sourced : Sourced body controlled) (unfolded : Unfolded controlled (staged body.func controlled) middle) :
    Traced body middle := by
  refine ⟨?_, ?_, ?_⟩
  · intro key n found role
    rcases unfolded.origin key n found with ⟨m, there, same⟩ | ⟨_, _, isPart, _⟩
    · obtain ⟨_, kind, value, _⟩ := Node.same_of_unlisted same
      rw [kind, value]
      exact (sourced.nodes key m there).2
    · exact absurd role isPart
  · intro key n found isPart
    rcases unfolded.origin key n found with ⟨m, there, same⟩ | ⟨young, _, _, id, member, m, there, value⟩
    · exact absurd ((Node.same_of_unlisted same).2.2.2.trans (sourced.nodes key m there).1) isPart
    · obtain ⟨m', node, address⟩ := (mem_staged body.func controlled well.indexed id).mp member
      cases Option.some.inj (there.symm.trans node)
      rw [value]
      exact ⟨Nat.zero_lt_of_lt young, (address_plain body.func m address).2.2⟩
  · intro id e found data
    refine (unfolded.edges id e found).imp_right ?_
    rintro ⟨old, there, kind, source, target⟩
    rw [source, target]
    exact sourced.flows id old there (kind ▸ data)

theorem value_at_annotated (g : Graph) (s : Backedges.Search) (key : NodeId) :
    (Backedges.annotate g s).valueAt key = g.valueAt key := by
  rw [valueAt, Backedges.get_annotate_node, valueAt]
  cases g.nodes.get? key <;> rfl

theorem node_stays (f : Func) (g middle : Graph) (key : NodeId) (absent : key ∉ staged f g) :
    (withoutStaged f g middle).nodes.get? key = middle.nodes.get? key :=
  (get_fold_remove (staged f g) middle key).trans (if_neg absent)

-- No edge is at a node that goes.
theorem ends_stay (f : Func) (g middle : Graph) (unfolded : Unfolded g (staged f g) middle) (key : EdgeId) (e : Edge)
    (found : middle.edges.get? key = some e) :
    (withoutStaged f g middle).nodes.get? e.source = middle.nodes.get? e.source ∧
      (withoutStaged f g middle).nodes.get? e.target = middle.nodes.get? e.target :=
  ⟨node_stays f g middle e.source fun member => (unfolded.detached e.source member key e found).1 rfl,
    node_stays f g middle e.target fun member => (unfolded.detached e.target member key e found).2 rfl⟩

theorem traced_without (body : Body) (controlled middle : Graph) (traced : Traced body middle)
    (unfolded : Unfolded controlled (staged body.func controlled) middle) :
    Traced body (withoutStaged body.func controlled middle) := by
  have read := get_fold_remove (staged body.func controlled) middle
  have edges : (withoutStaged body.func controlled middle).edges = middle.edges :=
    (fold_remove_frame (staged body.func controlled) middle).1
  have held : ∀ key n, (withoutStaged body.func controlled middle).nodes.get? key = some n →
      middle.nodes.get? key = some n := by
    intro key n found
    have found : ((staged body.func controlled).foldl removeNode middle).nodes.get? key = some n := found
    rw [read] at found
    split at found
    · cases found
    · exact found
  refine ⟨?_, ?_, ?_⟩
  · exact fun key n found => traced.plain key n (held key n found)
  · exact fun key n found => traced.parts key n (held key n found)
  · intro id e found data
    rw [edges] at found
    obtain ⟨source, target⟩ := ends_stay body.func controlled middle unfolded id e found
    rw [ChainLink, valueAt, valueAt, source, target]
    exact traced.flows id e found data

theorem traced_annotated (body : Body) (g : Graph) (s : Backedges.Search) (traced : Traced body g) :
    Traced body (Backedges.annotate g s) := by
  have nodes : ∀ key n, (Backedges.annotate g s).nodes.get? key = some n → ∃ m, g.nodes.get? key = some m ∧
      n.kind = m.kind ∧ n.value = m.value ∧ n.role = m.role := by
    intro key n found
    rw [Backedges.get_annotate_node] at found
    obtain ⟨m, there, rfl⟩ := Option.map_eq_some_iff.mp found
    exact ⟨m, there, rfl, rfl, rfl⟩
  have values := value_at_annotated g s
  refine ⟨?_, ?_, ?_⟩
  · intro key n found role
    obtain ⟨m, there, kind, value, sameRole⟩ := nodes key n found
    rw [kind, value]
    exact traced.plain key m there (sameRole ▸ role)
  · intro key n found role
    obtain ⟨m, there, _, value, sameRole⟩ := nodes key n found
    rw [value]
    exact traced.parts key m there (sameRole ▸ role)
  · intro id marked found data
    obtain ⟨e, old, rfl⟩ := Option.map_eq_some_iff.mp ((Table.get_map _ g.edges id).symm.trans found)
    rw [values, values]
    refine (traced.flows id e old data).imp_left ?_
    rintro ⟨kind, a, b, out, into, source, target, rest⟩
    refine ⟨kind, Backedges.noted g s a, Backedges.noted g s b, out, into, ?_, ?_, rest⟩
    · rw [Backedges.get_annotate_node, source, Option.map_some]
    · rw [Backedges.get_annotate_node, target, Option.map_some]

theorem completed_traced (body : Body) (pdom : ControlLinks.PostDominates)
    (start linked controlled middle finished : Graph) (placed : Placed body.instrs start)
    (completed : Completed body pdom start linked controlled middle finished) : Traced body finished := by
  have supplied := completed.supplied
  have well := ControlLinks.controlled_well_formed linked controlled supplied.well completed.added
  have sourced := sourced_controlled body linked controlled (sourced_linked body start linked placed _ _ supplied)
    completed.added
  have traced := traced_unfolded body controlled middle well sourced completed.unfolded
  rw [completed.last]
  exact traced_annotated body _ _ (traced_without body controlled middle traced completed.unfolded)

end LoopDeps.Graph
