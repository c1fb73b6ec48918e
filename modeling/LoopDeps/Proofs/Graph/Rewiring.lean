import LoopDeps.Proofs.Graph.Edits
set_option autoImplicit false

/- All edges at one end of a node attached elsewhere, one after the other. -/
namespace LoopDeps.Graph

-- Only listings and the ends of edges differ.
structure Rewired (g h : Graph) : Prop where
  nodes : ∀ key, (h.nodes.get? key).map Node.unlisted = (g.nodes.get? key).map Node.unlisted
  size : h.size = g.size
  edgeCount : h.edges.size = g.edges.size
  byValue : h.byValue = g.byValue
  chain : h.chain = g.chain
  lastNode : h.lastNode = g.lastNode
  lastEdge : h.lastEdge = g.lastEdge

theorem rewired_refl (g : Graph) : Rewired g g := ⟨fun _ => rfl, rfl, rfl, rfl, rfl, rfl, rfl⟩

theorem rewired_trans (g h k : Graph) (first : Rewired g h) (second : Rewired h k) : Rewired g k :=
  ⟨fun key => (second.nodes key).trans (first.nodes key), second.size.trans first.size,
   second.edgeCount.trans first.edgeCount, second.byValue.trans first.byValue, second.chain.trans first.chain,
   second.lastNode.trans first.lastNode, second.lastEdge.trans first.lastEdge⟩

theorem rewired_with_end (g : Graph) (side : End) (id : EdgeId) (old other : NodeId) :
    Rewired g (g.withEnd side id old other) := by
  refine ⟨?_, ?_, Table.size_modify _ _ _, rfl, rfl, rfl, rfl⟩
  · intro key
    rw [get_with_end_node, Option.map_map]
    congr 1
    funext n
    exact Node.unlisted_relisted n _ side
  · exact (Table.size_modify _ _ _).trans (Table.size_modify _ _ _)

theorem rewired_node (g h : Graph) (rewired : Rewired g h) (key : NodeId) (n : Node)
    (found : g.nodes.get? key = some n) : ∃ m, h.nodes.get? key = some m ∧ m.unlisted = n.unlisted :=
  node_of_same g h key n (rewired.nodes key) found

theorem listing_nodup (g : Graph) (mirrored : g.Mirrored) (side : End) (key : NodeId) (n : Node)
    (node : g.nodes.get? key = some n) : (n.listing side).Nodup := by
  refine List.nodup_iff_count.mpr fun id => ?_
  by_cases member : id ∈ n.listing side
  · obtain ⟨e, found, there⟩ := mirrored.recorded side key n id node member
    obtain ⟨m, same, once⟩ := mirrored.listed side id e found
    rw [there, node] at same
    cases same
    exact Nat.le_of_eq once
  · rw [List.count_eq_zero.mpr member]
    exact Nat.zero_le 1

theorem mem_listing (g : Graph) (mirrored : g.Mirrored) (side : End) (key : NodeId) (n : Node)
    (node : g.nodes.get? key = some n) (id : EdgeId) (e : Edge) (found : g.edges.get? id = some e) :
    id ∈ n.listing side ↔ e.endAt side = key := by
  constructor
  · intro member
    obtain ⟨other, same, there⟩ := mirrored.recorded side key n id node member
    cases Option.some.inj (found.symm.trans same)
    exact there
  · intro there
    obtain ⟨m, same, once⟩ := mirrored.listed side id e found
    rw [there, node] at same
    cases same
    exact List.count_pos_iff.mp (Nat.lt_of_lt_of_eq Nat.zero_lt_one once.symm)

-- A node at neither end of a move.
theorem with_end_elsewhere (g : Graph) (side : End) (id : EdgeId) (old other key : NodeId) (off : key ≠ old)
    (onto : key ≠ other) : (g.withEnd side id old other).nodes.get? key = g.nodes.get? key := by
  have same : ∀ n : Node, n.relisted (rehung id old other key (n.listing side)) side = n := by
    intro n
    rw [rehung, if_neg off, if_neg onto, List.append_nil]
    cases side <;> rfl
  rw [get_with_end_node]
  simp only [same, Option.map_id']

-- The graph when the edges of `done` have one end where `goal` says, and no longer at `old`.
structure Moved (g : Graph) (side : End) (old : NodeId) (goal : Edge → NodeId) (done : List EdgeId) (h : Graph) :
    Prop where
  well : h.WellFormed
  rewired : Rewired g h
  untouched : ∀ key, key ≠ old → (∀ e, key ≠ goal e) → h.nodes.get? key = g.nodes.get? key
  others : ∀ other, other ≠ side → ∀ key,
    (h.nodes.get? key).map (Node.listing · other) = (g.nodes.get? key).map (Node.listing · other)
  edges : ∀ id, h.edges.get? id = (g.edges.get? id).map fun e => if id ∈ done then e.moved (goal e) side else e

theorem moved_nothing (g : Graph) (well : g.WellFormed) (side : End) (old : NodeId) (goal : Edge → NodeId) :
    Moved g side old goal [] g :=
  ⟨well, rewired_refl g, fun _ _ _ => rfl, fun _ _ _ => rfl, fun id => by simp⟩

theorem moved_one (g h : Graph) (side : End) (old : NodeId) (goal : Edge → NodeId) (done : List EdgeId)
    (moved : Moved g side old goal done h) (id : EdgeId) (e : Edge) (found : g.edges.get? id = some e)
    (here : h.edges.get? id = some e) (there : e.endAt side = old) (present : ∃ m, g.nodes.get? (goal e) = some m) :
    Moved g side old goal (done ++ [id]) (h.withEnd side id (e.endAt side) (goal e)) := by
  obtain ⟨m, target⟩ := present
  obtain ⟨m', targetHere, _⟩ := rewired_node g h moved.rewired (goal e) m target
  refine ⟨with_end_well_formed h side id e (goal e) moved.well here ⟨m', targetHere⟩,
    rewired_trans g h _ moved.rewired (rewired_with_end h side id _ _), ?_, ?_, ?_⟩
  · intro key off onto
    rw [with_end_elsewhere h side id _ _ key (there ▸ off) (onto e), moved.untouched key off onto]
  · intro other different key
    rw [← moved.others other different key, get_with_end_node, Option.map_map]
    congr 1
    funext n
    exact (listing_relisted n _ side other).trans (if_neg different)
  · intro other
    rw [get_with_end_edge]
    by_cases same : other = id
    · rw [if_pos same, same, here, found, Option.map_some, Option.map_some]
      simp
    · rw [if_neg same, moved.edges]
      simp [same]

theorem not_met_before (ids done rest : List Nat) (id : Nat) (once : ids.Nodup) (split : ids = done ++ id :: rest) :
    id ∉ done := by
  rw [split] at once
  exact fun member => (List.nodup_append.mp once).2.2 id member id List.mem_cons_self rfl

-- Each move takes its edge from the node `old` to a node that depends on the edge alone.
theorem move_all_run (g : Graph) (well : g.WellFormed) (side : End) (old : NodeId) (n : Node)
    (node : g.nodes.get? old = some n) (goal : Edge → NodeId) (move : EdgeId → Edit Unit)
    (present : ∀ id e, g.edges.get? id = some e → e.endAt side = old → ∃ m, g.nodes.get? (goal e) = some m)
    (moves : ∀ h id e, h.WellFormed → Rewired g h → g.edges.get? id = some e → h.edges.get? id = some e →
      e.endAt side = old → (move id).run h = .ok () (h.withEnd side id (e.endAt side) (goal e))) :
    ∃ h, ((n.listing side).forM move).run g = .ok () h ∧ h.WellFormed ∧ Rewired g h ∧
      (∀ key, key ≠ old → (∀ e, key ≠ goal e) → h.nodes.get? key = g.nodes.get? key) ∧
      (∀ other, other ≠ side → ∀ key,
        (h.nodes.get? key).map (Node.listing · other) = (g.nodes.get? key).map (Node.listing · other)) ∧
      ∀ id, h.edges.get? id =
        (g.edges.get? id).map fun e => if e.endAt side = old then e.moved (goal e) side else e := by
  have once := listing_nodup g well.mirrored side old n node
  obtain ⟨h, ran, moved⟩ := Edit.run_for_each (n.listing side) move (Moved g side old goal) (by
      intro done id rest h split moved
      obtain ⟨e, found, there⟩ := well.mirrored.recorded side old n id node (by simp [split])
      -- No edge comes up twice, so that this one is still as it was.
      have unmoved := not_met_before _ done rest id once split
      have here : h.edges.get? id = some e := by rw [moved.edges, found, Option.map_some, if_neg unmoved]
      exact ⟨_, moves h id e moved.well moved.rewired found here there,
        moved_one g h side old goal done moved id e found here there (present id e found there)⟩)
    g (moved_nothing g well side old goal)
  refine ⟨h, ran, moved.well, moved.rewired, moved.untouched, moved.others, fun id => ?_⟩
  rw [moved.edges]
  cases found : g.edges.get? id with
  | none => rfl
  | some e =>
      simp only [Option.map_some, mem_listing g well.mirrored side old n node id e found]

end LoopDeps.Graph
