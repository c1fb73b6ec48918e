import LoopDeps.Proofs.Graph.Edits
set_option autoImplicit false

/- Edits that fail. An edge with a missing end is refused before anything is done, and so is the move of a missing edge.
   A move to a missing node comes too late for that: the edge has left the listing of its old end, and no other takes it
   in until a later move of the same end goes well. Nothing else of a graph is touched by an edit that fails. -/
namespace LoopDeps

-- The edits of edges.
inductive Change where
  | add (source target : NodeId) (kind : Dependence) (weight : Float)
  | move (side : End) (id : EdgeId) (other : NodeId)

namespace Change

def edit : Change → Edit Unit
  | .add source target kind weight => do let _ ← Edit.addEdge source target kind weight
  | .move side id other => Edit.moveEnd side id other

-- Whether a change finds its edge and misses the node to attach it to.
def Strands (change : Change) (g : Graph) : Prop :=
  match change with
  | .add .. => False
  | .move _ id other => (∃ e, g.edges.get? id = some e) ∧ g.nodes.get? other = none

-- What is left of a graph by a change that fails.
def left (change : Change) (g : Graph) : Graph :=
  match change with
  | .add .. => g
  | .move side id _ => (g.edges.get? id).elim g fun e => g.unhooked side id (e.endAt side)

-- The graph after a change, whether it fails or not.
def outcome (change : Change) (g : Graph) : Graph :=
  match change.edit.run g with
  | .ok _ next => next
  | .error _ next => next

-- The ends of edges that no node lists after a change, when `loose` were those before.
def loosens (change : Change) (g : Graph) (loose : List (EdgeId × End)) : List (EdgeId × End) :=
  match change with
  | .add .. => loose
  | .move side id other =>
      if !g.edges.contains id then loose
      else if g.nodes.contains other then loose.filter fun entry => entry ≠ (id, side)
      else (id, side) :: loose

end Change

namespace Edit

theorem change_node_error (id : NodeId) (f : Node → Node) (g : Graph) (absent : g.nodes.get? id = none) :
    (changeNode id f).run g = .error (.missing g.loopId (.node id)) g := by
  have lookup : (getNode id).run g = .error (.missing g.loopId (.node id)) g := by
    simp only [getNode, EStateM.run_bind, EStateM.run_get, absent, missing_run]
  exact run_bind_error _ _ g g _ lookup

theorem add_edge_cases (source target : NodeId) (kind : Dependence) (weight : Float) (g : Graph) :
    ((∃ n, g.nodes.get? source = some n) ∧ (∃ n, g.nodes.get? target = some n) ∧
        (Change.add source target kind weight).edit.run g = .ok () (attach g source target kind weight)) ∨
      ∃ what, (Change.add source target kind weight).edit.run g = .error (.missing g.loopId what) g := by
  by_cases noSource : g.nodes.contains source = true
  · by_cases noTarget : g.nodes.contains target = true
    · have sourceNode := Table.contains_iff.mp noSource
      have targetNode := Table.contains_iff.mp noTarget
      exact Or.inl ⟨sourceNode, targetNode,
        run_bind_ok _ _ g _ _ (add_edge_run source target kind weight g sourceNode targetNode)⟩
    · refine Or.inr ⟨.edgeTarget target, run_bind_error _ _ g g _ ?_⟩
      simp only [addEdge, EStateM.run_bind, EStateM.run_get, noSource, noTarget, missing_run, Bool.not_true,
        Bool.false_eq_true, Bool.not_false, if_false, if_true]
  · refine Or.inr ⟨.edgeSource source, run_bind_error _ _ g g _ ?_⟩
    simp only [addEdge, EStateM.run_bind, EStateM.run_get, noSource, missing_run, Bool.not_false, if_true]

theorem move_no_edge (side : End) (id : EdgeId) (other : NodeId) (g : Graph) (absent : g.edges.get? id = none) :
    (moveEnd side id other).run g = .error (.missing g.loopId (.edge id)) g := by
  have lookup : (getEdge id).run g = .error (.missing g.loopId (.edge id)) g := by
    simp only [getEdge, EStateM.run_bind, EStateM.run_get, absent, missing_run]
  rw [move_end_steps, run_bind_error _ _ g g _ lookup]

theorem move_astray (side : End) (id : EdgeId) (other : NodeId) (g : Graph) (e : Edge)
    (found : g.edges.get? id = some e) (oldNode : ∃ n, g.nodes.get? (e.endAt side) = some n)
    (absent : g.nodes.get? other = none) :
    (moveEnd side id other).run g = .error (.missing g.loopId (.node other)) (g.unhooked side id (e.endAt side)) := by
  have nowhere : (g.unhooked side id (e.endAt side)).nodes.get? other = none := by
    rw [Graph.get_unhooked, absent]
    rfl
  rw [move_end_steps, run_bind_ok _ _ g g e (get_edge_run id g e found),
    run_bind_ok _ _ g _ () (unhook_run side id _ g oldNode),
    run_bind_error _ _ _ _ _ (change_node_error other _ _ nowhere)]
  rfl

end Edit

namespace Graph

-- One change, done or failed.
theorem hooked_outcome (g : Graph) (loose : List (EdgeId × End)) (hooked : g.Hooked loose) (change : Change) :
    (change.outcome g).Hooked (change.loosens g loose) := by
  cases change with
  | add source target kind weight =>
      rcases Edit.add_edge_cases source target kind weight g with ⟨sourceNode, targetNode, ran⟩ | ⟨what, ran⟩
      · rw [Change.outcome, ran]
        exact hooked_attach g source target kind weight loose hooked sourceNode targetNode
      · rw [Change.outcome, ran]
        exact hooked
  | move side id other =>
      rw [Change.outcome, Change.edit, Change.loosens]
      cases found : g.edges.get? id with
      | none =>
          have absent : (!g.edges.contains id) = true := by rw [Table.contains, found]; rfl
          rw [Edit.move_no_edge side id other g found, if_pos absent]
          exact hooked
      | some e =>
          have present : ¬(!g.edges.contains id) = true := by rw [Table.contains, found]; simp
          obtain ⟨n, old, _⟩ := hooked.listed side id e found
          rw [if_neg present]
          cases there : g.nodes.get? other with
          | none =>
              have nowhere : ¬g.nodes.contains other = true := by rw [Table.contains, there]; simp
              rw [Edit.move_astray side id other g e found ⟨n, old⟩ there, if_neg nowhere]
              exact hooked_unhooked g loose hooked side id e found
          | some m =>
              have somewhere : g.nodes.contains other = true := by rw [Table.contains, there]; rfl
              rw [Edit.move_end_run side id other g e found ⟨n, old⟩ ⟨m, there⟩, if_pos somewhere]
              exact hooked_with_end g loose hooked side id e found other ⟨m, there⟩

-- Graphs that come about by fresh nodes without edges and by changes, each with the ends that are loose in it.
inductive Reached (loopId : Nat) : Graph → List (EdgeId × End) → Prop where
  | new : Reached loopId (Graph.new loopId) []
  | newNodeId (g : Graph) (loose : List (EdgeId × End)) (before : Reached loopId g loose) : Reached loopId g.withFresh loose
  | valueNode (g : Graph) (loose : List (EdgeId × End)) (n : Node) (before : Reached loopId g loose)
      (absent : g.nodes.get? n.id = none) (bare : Bare n) : Reached loopId (g.insertValueNode n) loose
  | chainNode (g : Graph) (loose : List (EdgeId × End)) (n : Node) (before : Reached loopId g loose)
      (absent : g.nodes.get? n.id = none) (bare : Bare n) : Reached loopId (g.insertChainNode n) loose
  | change (g : Graph) (loose : List (EdgeId × End)) (change : Change) (before : Reached loopId g loose) :
      Reached loopId (change.outcome g) (change.loosens g loose)

theorem reached_hooked (loopId : Nat) (g : Graph) (loose : List (EdgeId × End)) (reached : Reached loopId g loose) :
    g.Hooked loose := by
  induction reached with
  | new => exact hooked_of_well_formed _ (new_well_formed loopId)
  | newNodeId g loose _ ih => exact ⟨ih.edgeKeys, ih.edgeBound, ih.listed, ih.recorded, ih.known⟩
  | valueNode g loose n _ absent bare ih =>
      exact hooked_fresh g _ n loose ih (fun key => Table.get_insert g.nodes n.id key n) rfl rfl absent bare
  | chainNode g loose n _ absent bare ih =>
      exact hooked_fresh g _ n loose ih (fun key => Table.get_insert g.nodes n.id key n) rfl rfl absent bare
  | change g loose change _ ih => exact hooked_outcome g loose ih change

theorem unhooked_ne (g : Graph) (mirrored : g.Mirrored) (side : End) (id : EdgeId) (e : Edge)
    (found : g.edges.get? id = some e) : g.unhooked side id (e.endAt side) ≠ g := by
  intro same
  obtain ⟨n, node, once⟩ := mirrored.listed side id e found
  have read := get_unhooked g side id (e.endAt side) (e.endAt side)
  rw [same, node, Option.map_some, if_pos rfl] at read
  have listing := congrArg (fun m => m.listing side) (Option.some.inj read)
  rw [listing_relisted, if_pos rfl] at listing
  have gone : (n.listing side).count id = 0 := by
    rw [listing]
    exact List.count_eq_zero.mpr (by simp)
  omega

-- A change that fails has done nothing, or has taken its edge off.
theorem failed_leaves (g : Graph) (mirrored : g.Mirrored) (change : Change) :
    change.edit.Leads g (fun _ _ => ¬change.Strands g) fun error next =>
      (∃ what, error = .missing g.loopId what) ∧ (next = g ↔ ¬change.Strands g) ∧ next = change.left g := by
  cases change with
  | add source target kind weight =>
      rcases Edit.add_edge_cases source target kind weight g with ⟨_, _, ran⟩ | ⟨what, ran⟩
      · exact Edit.leads_of_ok _ g _ () ran id
      · exact Edit.leads_of_error _ g g _ ran ⟨⟨what, rfl⟩, iff_of_true rfl id, rfl⟩
  | move side id other =>
      cases found : g.edges.get? id with
      | none =>
          have absent : ¬(Change.move side id other).Strands g := by
            rintro ⟨⟨e, present⟩, _⟩
            rw [found] at present
            cases present
          refine Edit.leads_of_error _ g g _ (Edit.move_no_edge side id other g found) ⟨⟨_, rfl⟩, iff_of_true rfl absent, ?_⟩
          rw [Change.left, found, Option.elim_none]
      | some e =>
          obtain ⟨n, old, _⟩ := mirrored.listed side id e found
          cases there : g.nodes.get? other with
          | none =>
              have strands : (Change.move side id other).Strands g := ⟨⟨e, found⟩, there⟩
              refine Edit.leads_of_error _ g _ _ (Edit.move_astray side id other g e found ⟨n, old⟩ there)
                ⟨⟨_, rfl⟩, iff_of_false (unhooked_ne g mirrored side id e found) (not_not_intro strands), ?_⟩
              rw [Change.left, found, Option.elim_some]
          | some m =>
              refine Edit.leads_of_ok _ g _ () (Edit.move_end_run side id other g e found ⟨n, old⟩ ⟨m, there⟩) ?_
              rintro ⟨_, absent⟩
              rw [there] at absent
              cases absent

-- Edits are atomic but for moves of an edge to a missing node, and a graph keeps every edge listed at both ends as long
-- as no such move is left without a later one that goes well.
theorem edits_atomic_unless_stranding (loopId : Nat) :
    (∀ g : Graph, g.Mirrored → ∀ change : Change, change.edit.Leads g (fun _ _ => ¬change.Strands g) fun error next =>
      (∃ what, error = .missing g.loopId what) ∧ (next = g ↔ ¬change.Strands g) ∧ next = change.left g) ∧
    ∀ g loose, Reached loopId g loose → g.Hooked loose ∧ (g.Mirrored ↔ loose = []) := by
  refine ⟨failed_leaves, fun g loose reached => ?_⟩
  have hooked := reached_hooked loopId g loose reached
  exact ⟨hooked, mirrored_iff_none_loose g loose hooked⟩

def pair : Graph :=
  let first := (new 0).withFresh.insertValueNode (Node.instruction 1 0 "load")
  (Change.add 1 2 .data 1.0).outcome (first.withFresh.insertValueNode (Node.instruction 2 1 "add"))

-- Its edge is sent to a node that does not exist, and then to one that does.
def strayed : Graph := (Change.move .source 1 9).outcome pair

def returned : Graph := (Change.move .source 1 2).outcome strayed

theorem instruction_bare (id : NodeId) (value : ValueId) (label : String) : Bare (Node.instruction id value label) := by
  intro side
  cases side <;> rfl

theorem pair_reached : Reached 0 pair [] :=
  .change _ _ (.add 1 2 .data 1.0) <|
    .valueNode _ _ _ (.newNodeId _ _ <| .valueNode _ _ _ (.newNodeId _ _ .new) rfl (instruction_bare 1 0 "load")) rfl
      (instruction_bare 2 1 "add")

theorem strayed_reached : Reached 0 strayed [(1, .source)] := .change pair [] (.move .source 1 9) pair_reached

theorem returned_reached : Reached 0 returned [] := .change strayed _ (.move .source 1 2) strayed_reached

theorem pair_strays : (Change.move .source 1 9).edit.run pair = .error (.missing 0 (.node 9)) strayed := by
  have ran := Edit.move_astray .source 1 9 pair ⟨1, .data, 1.0, 1, 2, false⟩ rfl ⟨_, rfl⟩ rfl
  have same : strayed = pair.unhooked .source 1 1 := by
    rw [strayed, Change.outcome, Change.edit, ran]
    rfl
  rw [same]
  exact ran

theorem strayed_and_returned : strayed ≠ pair ∧ strayed = (Change.move .source 1 9).left pair ∧ ¬strayed.Mirrored ∧
    returned.Mirrored := by
  obtain ⟨atomic, told⟩ := edits_atomic_unless_stranding 0
  have mirrored := (told pair _ pair_reached).2.mpr rfl
  have failed := atomic pair mirrored (.move .source 1 9)
  rw [Edit.Leads, pair_strays] at failed
  obtain ⟨_, kept, left⟩ := failed
  have strands : (Change.move .source 1 9).Strands pair := ⟨⟨_, rfl⟩, rfl⟩
  exact ⟨fun same => kept.mp same strands, left,
    fun whole => List.cons_ne_nil _ _ ((told strayed _ strayed_reached).2.mp whole),
    (told returned _ returned_reached).2.mpr rfl⟩

theorem pair_well_formed : pair.WellFormed := by
  have first := insert_value_node_well_formed (new 0) (Node.instruction 1 0 "load") (new_well_formed 0) rfl rfl
    (instruction_bare 1 0 "load")
  have second := insert_value_node_well_formed _ (Node.instruction 2 1 "add") first rfl rfl (instruction_bare 2 1 "add")
  exact attach_well_formed _ 1 2 .data 1.0 second ⟨_, rfl⟩ ⟨_, rfl⟩

theorem strayed_not_mirrored : ¬strayed.Mirrored := by
  intro mirrored
  have hooked := reached_hooked 0 strayed _ strayed_reached
  exact List.cons_ne_nil _ _ ((mirrored_iff_none_loose strayed _ hooked).mp mirrored)

-- A move can fail and leave its mark, and the graph is not in order then.
theorem not_every_edit_atomic :
    (¬∀ g : Graph, g.WellFormed → ∀ (change : Change) (error : LoopError) (next : Graph),
      change.edit.run g = .error error next → next = g) ∧
    ¬∀ g loose, Reached 0 g loose → g.Mirrored := by
  constructor
  · intro atomic
    have same := atomic pair pair_well_formed (.move .source 1 9) _ _ pair_strays
    exact strayed_not_mirrored (same ▸ pair_well_formed.mirrored)
  · intro always
    exact strayed_not_mirrored (always strayed _ strayed_reached)

end Graph

end LoopDeps
