import Mathlib.Data.List.Induction
import LoopDeps.Graph.Build
import LoopDeps.Proofs.Graph.Inserting
set_option autoImplicit false

/- The graph that the passes start from: the instructions of the body are its nodes one to one, in the
   order of the body and under consecutive ids, and it has no edges. -/
namespace LoopDeps

namespace Body

theorem instr_defined (body : Body) (i : BodyInstr) (member : i ∈ body.instrs) :
    body.func.instr? i.id = some i.instr := by
  obtain ⟨block, _, inBlock⟩ := List.mem_flatMap.mp member
  obtain ⟨id, _, made⟩ := List.mem_filterMap.mp inBlock
  obtain ⟨instr, defined, rfl⟩ := Option.map_eq_some_iff.mp made
  exact defined

-- The values the instructions of the body stand for.
def ids (body : Body) : List ValueId := body.instrs.map BodyInstr.id

end Body

namespace Graph

structure Placed (instrs : List BodyInstr) (g : Graph) : Prop where
  well : g.WellFormed
  nodes : g.nodes.values = instrs.mapIdx fun position i => nodeOf (position + 1) i
  last : g.lastNode = instrs.length
  values : ∀ value, (∃ id, g.nodeOf? value = some id) ↔ value ∈ instrs.map BodyInstr.id
  noEdges : g.edges = Table.empty

theorem node_of_bare (id : NodeId) (i : BodyInstr) : Bare (nodeOf id i) := by
  intro side
  cases side <;> rfl

theorem placed_new (loopId : Nat) : Placed [] (new loopId) := by
  refine ⟨new_well_formed loopId, rfl, rfl, ?_, rfl⟩
  intro value
  constructor
  · rintro ⟨id, found⟩
    cases found
  · intro member
    cases member

theorem placed_add (instrs : List BodyInstr) (g : Graph) (i : BodyInstr) (placed : Placed instrs g) :
    Placed (instrs ++ [i]) (g.addInstr i) := by
  have same : g.addInstr i = g.withFresh.insertValueNode (nodeOf (g.lastNode + 1) i) := rfl
  have above : ∀ other n, g.nodes.get? other = some n → other < g.lastNode + 1 :=
    node_below g placed.well.indexed
  refine ⟨?_, ?_, ?_, ?_, placed.noEdges⟩
  · exact insert_value_node_well_formed g (nodeOf (g.lastNode + 1) i) placed.well rfl rfl (node_of_bare _ i)
  · rw [List.mapIdx_concat, ← placed.nodes, ← placed.last]
    exact Table.values_insert_above g.nodes (g.lastNode + 1) (nodeOf (g.lastNode + 1) i) above
  · rw [List.length_append]
    exact congrArg (· + 1) placed.last
  · intro value
    have read : (g.addInstr i).nodeOf? value =
        if value = i.id then some (g.lastNode + 1) else g.nodeOf? value :=
      Table.get_insert g.byValue i.id value (g.lastNode + 1)
    rw [read, List.map_append, List.mem_append, ← placed.values value]
    by_cases here : value = i.id <;> simp [here]

theorem placed_fold (instrs : List BodyInstr) (loopId : Nat) :
    Placed instrs (instrs.foldl addInstr (new loopId)) := by
  induction instrs using List.reverseRecOn with
  | nil => exact placed_new loopId
  | append_singleton before i ih =>
      rw [List.foldl_append]
      exact placed_add before _ i ih

theorem placed_size (instrs : List BodyInstr) (g : Graph) (placed : Placed instrs g) :
    g.size = instrs.length := by
  rw [size, ← Table.values_length, placed.nodes, List.length_mapIdx]

theorem of_body_placed (body : Body) (g : Graph) (built : ofBody body = .ok g) : Placed body.instrs g := by
  have placed := placed_fold body.instrs body.loopId
  unfold ofBody at built
  dsimp only at built
  split at built
  · cases built
  · cases built
    exact ⟨⟨⟨placed.well.mirrored.edgeKeys, placed.well.mirrored.listed, placed.well.mirrored.recorded⟩,
      ⟨placed.well.indexed.nodeKeys, placed.well.indexed.nodeBound, placed.well.indexed.valueNodes,
        placed.well.indexed.chainOnce, placed.well.indexed.chainNodes⟩, placed.well.edgeBound⟩,
      placed.nodes, placed.last, placed.values, placed.noEdges⟩

-- Only a body without instructions has no graph to start from.
theorem of_body_cases (body : Body) :
    (body.instrs = [] ∧ ofBody body = .error (.emptyLoop body.loopId)) ∨
      (body.instrs ≠ [] ∧ ∃ g, ofBody body = .ok g) := by
  have size := placed_size _ _ (placed_fold body.instrs body.loopId)
  unfold ofBody
  dsimp only
  rw [size]
  by_cases nothing : body.instrs = []
  · refine Or.inl ⟨nothing, if_pos ?_⟩
    rw [nothing]
    rfl
  · refine Or.inr ⟨nothing, _, if_neg ?_⟩
    exact fun empty => nothing (List.length_eq_zero_iff.mp empty)

theorem placed_node (instrs : List BodyInstr) (g : Graph) (placed : Placed instrs g) (id : NodeId) (n : Node)
    (node : g.nodes.get? id = some n) : ∃ i ∈ instrs, n = nodeOf id i := by
  have member := Table.mem_values.mpr ⟨id, node⟩
  rw [placed.nodes] at member
  obtain ⟨position, bound, made⟩ := List.mem_mapIdx.mp member
  refine ⟨instrs[position], List.getElem_mem bound, ?_⟩
  have key : n.id = id := placed.well.indexed.nodeKeys id n node
  subst made
  rw [← key]
  rfl

end Graph

end LoopDeps
