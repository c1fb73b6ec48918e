import LoopDeps.Proofs.Graph.Drafting
set_option autoImplicit false

/- A graph with some edges more, written down at once. Attaching edges one after the other leads to it. -/
namespace LoopDeps

-- The edges are listed behind those that were there before.
def Node.extended (added : List Edge) (n : Node) : Node :=
  { n with
    outgoing := n.outgoing ++ Edge.listed added .source n.id
    incoming := n.incoming ++ Edge.listed added .target n.id }

namespace Node

theorem extended_nil (n : Node) : n.extended [] = n := by
  simp [extended, Edge.listed]

theorem extended_concat (added : List Edge) (e : Edge) (n : Node) :
    n.extended (added ++ [e]) = (n.extended added).joined n.id e := by
  rw [extended, Edge.listed_concat, Edge.listed_concat, ← List.append_assoc, ← List.append_assoc]
  rfl

end Node

namespace Graph

def extended (g : Graph) (added : List Edge) : Graph :=
  { g with
    nodes := g.nodes.map (Node.extended added)
    edges := added.foldl (fun edges e => edges.insert e.id e) g.edges
    lastEdge := g.lastEdge + added.length }

theorem extended_none (g : Graph) : g.extended [] = g := by
  have nodes : g.nodes.map (Node.extended []) = g.nodes :=
    (Table.map_congr fun _ n _ => n.extended_nil).trans (Table.map_id g.nodes)
  rw [extended, nodes]
  rfl

theorem weight_of_extended (g : Graph) (added : List Edge) (id : NodeId) :
    (g.extended added).weightOf id = g.weightOf id := by
  rw [weightOf, extended, Table.get_map, weightOf]
  cases g.nodes.get? id <;> rfl

theorem attach_extended (g : Graph) (indexed : g.Indexed) (added : List Edge) (source target : NodeId)
    (kind : Dependence) (weight : Float) :
    Edit.attach (g.extended added) source target kind weight =
      g.extended (added ++ [⟨g.lastEdge + added.length + 1, kind, weight, source, target, false⟩]) := by
  let e : Edge := ⟨g.lastEdge + added.length + 1, kind, weight, source, target, false⟩
  let next := Edit.attach (g.extended added) source target kind weight
  have nodes : next.nodes = g.nodes.map (Node.extended (added ++ [e])) := by
    apply Table.ext_get
    intro key
    rw [get_attach_node, Table.get_map, extended, Table.get_map, Option.map_map]
    cases node : g.nodes.get? key with
    | none => rfl
    | some n =>
        rw [Option.map_some, Option.map_some, Node.extended_concat, indexed.nodeKeys key n node]
        rfl
  have edges : next.edges = (g.extended (added ++ [e])).edges := by
    rw [extended, List.foldl_append]
    rfl
  have last : next.lastEdge = (g.extended (added ++ [e])).lastEdge := by
    rw [extended, List.length_append]
    rfl
  have same : next = { g.extended added with nodes := next.nodes, edges := next.edges, lastEdge := next.lastEdge } := rfl
  show next = _
  rw [same, nodes, edges, last]
  rfl

-- With the next ids, the edges come after all others.
theorem extended_edge_values (g : Graph) (well : g.WellFormed) (added : List Edge)
    (ids : ∀ position e, added[position]? = some e → e.id = g.lastEdge + position + 1) :
    (g.extended added).edges.values = g.edges.values ++ added ∧
      ∀ key e, (g.extended added).edges.get? key = some e → key ≤ g.lastEdge + added.length := by
  induction added using List.reverseRecOn with
  | nil => exact ⟨by rw [extended_none, List.append_nil], well.edgeBound⟩
  | append_singleton added e ih =>
      obtain ⟨values, bound⟩ := ih fun position old here => by
        refine ids position old ?_
        rw [List.getElem?_append_left (List.getElem?_eq_some_iff.mp here).1, here]
      have key : e.id = g.lastEdge + added.length + 1 := ids added.length e (by simp)
      have edges : (g.extended (added ++ [e])).edges = (g.extended added).edges.insert e.id e := by
        rw [extended, List.foldl_append]
        rfl
      rw [edges]
      refine ⟨?_, ?_⟩
      · rw [Table.values_insert_above _ _ _ fun other old found => ?_, values, List.append_assoc]
        exact key ▸ Nat.lt_succ_of_le (bound other old found)
      · intro other old found
        rw [List.length_append, List.length_singleton, ← Nat.add_assoc, ← key]
        rw [Table.get_insert] at found
        split at found
        · rename_i same
          exact Nat.le_of_eq same
        · exact Nat.le_of_lt (key ▸ Nat.lt_succ_of_le (bound other old found))

theorem has_data_edge_iff (g : Graph) (mirrored : g.Mirrored) (u v : NodeId) :
    g.hasDataEdge u v = true ↔
      ∃ id e, g.edges.get? id = some e ∧ e.kind = .data ∧ e.source = u ∧ e.target = v := by
  constructor
  · intro held
    unfold hasDataEdge at held
    split at held
    · cases held
    · rename_i n node
      simp only [outgoing, edgesOf, List.any_eq_true, List.mem_filterMap, Bool.and_eq_true, beq_iff_eq] at held
      obtain ⟨e, ⟨id, listed, found⟩, data, target⟩ := held
      obtain ⟨other, same, source⟩ := mirrored.recorded .source u n id node listed
      cases Option.some.inj (found.symm.trans same)
      exact ⟨id, e, found, data, source, target⟩
  · rintro ⟨id, e, found, data, rfl, target⟩
    obtain ⟨n, node, once⟩ := mirrored.listed .source id e found
    have node : g.nodes.get? e.source = some n := node
    have listed : id ∈ n.outgoing := List.count_pos_iff.mp (Nat.lt_of_lt_of_eq Nat.zero_lt_one once.symm)
    simp only [hasDataEdge, node, outgoing, edgesOf, List.any_eq_true, List.mem_filterMap, Bool.and_eq_true, beq_iff_eq]
    exact ⟨e, ⟨id, listed, found⟩, data, target⟩

end Graph

end LoopDeps
