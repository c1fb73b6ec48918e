import LoopDeps.Proofs.Graph.WellFormed
set_option autoImplicit false

/- The changes that the edits of a graph are made of, each with the graph it leads to: a fresh node,
   a new edge, an end of an edge attached elsewhere, and the removal of nodes without edges. -/
namespace LoopDeps

namespace Node

-- A node after an edge was put into the listings of its ends.
def joined (n : Node) (key : NodeId) (e : Edge) : Node :=
  { n with
    outgoing := n.outgoing ++ if key = e.source then [e.id] else []
    incoming := n.incoming ++ if key = e.target then [e.id] else [] }

-- All of a node but its listings.
def unlisted (n : Node) : Node := { n with incoming := [], outgoing := [] }

theorem same_of_unlisted {n m : Node} (same : n.unlisted = m.unlisted) :
    n.identity = m.identity ∧ n.kind = m.kind ∧ n.value = m.value ∧ n.role = m.role := by
  have identity := congrArg Node.identity same
  have kind := congrArg Node.kind same
  have value := congrArg Node.value same
  have role := congrArg Node.role same
  exact ⟨identity, kind, value, role⟩

theorem weighs_same {n m : Node} (same : n.unlisted = m.unlisted) : n.kind = m.kind ∧ n.weight = m.weight := by
  have kind := congrArg Node.kind same
  have weight := congrArg Node.weight same
  exact ⟨kind, weight⟩

theorem unlisted_relisted (n : Node) (ids : List EdgeId) (side : End) :
    (n.relisted ids side).unlisted = n.unlisted := by
  cases side <;> rfl

theorem listing_joined (n : Node) (key : NodeId) (e : Edge) (side : End) :
    (n.joined key e).listing side = n.listing side ++ if key = e.endAt side then [e.id] else [] := by
  cases side <;> rfl

theorem count_joined_other (n : Node) (key : NodeId) (e : Edge) (side : End) (id : EdgeId) (other : e.id ≠ id) :
    ((n.joined key e).listing side).count id = (n.listing side).count id := by
  rw [listing_joined, List.count_append]
  split <;> simp [other]

end Node

namespace Graph

-- Where two graphs agree but for the listings, a node of one is a node of the other.
theorem node_of_same (g h : Graph) (key : NodeId) (n : Node)
    (same : (h.nodes.get? key).map Node.unlisted = (g.nodes.get? key).map Node.unlisted)
    (found : g.nodes.get? key = some n) : ∃ m, h.nodes.get? key = some m ∧ m.unlisted = n.unlisted := by
  rw [found] at same
  exact Option.map_eq_some_iff.mp same

def newEdge (g : Graph) (source target : NodeId) (kind : Dependence) (weight : Float) : Edge :=
  ⟨g.lastEdge + 1, kind, weight, source, target, false⟩

-- A listing at `key` when an end of the edge goes from `old` to `other`.
def rehung (id : EdgeId) (old other key : NodeId) (ids : List EdgeId) : List EdgeId :=
  (if key = old then ids.filter (· != id) else ids) ++ if key = other then [id] else []

def withEnd (g : Graph) (side : End) (id : EdgeId) (old other : NodeId) : Graph :=
  let unhung := g.modifyNode old fun n => n.relisted ((n.listing side).filter (· != id)) side
  let hung := unhung.modifyNode other fun n => n.relisted (n.listing side ++ [id]) side
  { hung with edges := hung.edges.modify id fun e => e.moved other side }

def withFresh (g : Graph) : Graph := { g with lastNode := g.lastNode + 1 }

theorem node_below (g : Graph) (indexed : g.Indexed) (key : NodeId) (n : Node)
    (found : g.nodes.get? key = some n) : key < g.lastNode + 1 :=
  Nat.lt_succ_of_le (indexed.nodeBound key n found)

theorem edge_below (g : Graph) (well : g.WellFormed) (id : EdgeId) (e : Edge)
    (found : g.edges.get? id = some e) : id < g.lastEdge + 1 :=
  Nat.lt_succ_of_le (well.edgeBound id e found)

theorem no_fresh_node (g : Graph) (indexed : g.Indexed) : g.nodes.get? (g.lastNode + 1) = none :=
  Option.eq_none_iff_forall_ne_some.mpr fun n found =>
    Nat.lt_irrefl _ (node_below g indexed _ n found)

theorem no_fresh_edge (g : Graph) (well : g.WellFormed) : g.edges.get? (g.lastEdge + 1) = none :=
  Option.eq_none_iff_forall_ne_some.mpr fun e found => Nat.lt_irrefl _ (edge_below g well _ e found)

theorem get_attach_node (g : Graph) (source target : NodeId) (kind : Dependence) (weight : Float)
    (key : NodeId) :
    (Edit.attach g source target kind weight).nodes.get? key =
      (g.nodes.get? key).map fun n => n.joined key (g.newEdge source target kind weight) := by
  rw [Edit.attach, get_modify_node, get_modify_node, Option.map_map]
  congr 1
  funext n
  dsimp only [Node.joined, newEdge, Function.comp_apply]
  by_cases into : key = target
  · by_cases out : key = source
    · simp only [if_pos into, if_pos out]
    · simp only [if_pos into, if_neg out, List.append_nil]
  · by_cases out : key = source
    · simp only [if_neg into, if_pos out, List.append_nil]
    · simp only [if_neg into, if_neg out, List.append_nil]

theorem get_attach_edge (g : Graph) (source target : NodeId) (kind : Dependence) (weight : Float)
    (id : EdgeId) :
    (Edit.attach g source target kind weight).edges.get? id =
      if id = g.lastEdge + 1 then some (g.newEdge source target kind weight) else g.edges.get? id :=
  Table.get_insert g.edges (g.lastEdge + 1) id (g.newEdge source target kind weight)

theorem attach_edge_values (g : Graph) (source target : NodeId) (kind : Dependence) (weight : Float)
    (well : g.WellFormed) : (Edit.attach g source target kind weight).edges.values =
      g.edges.values ++ [g.newEdge source target kind weight] :=
  Table.values_insert_above g.edges (g.lastEdge + 1) (g.newEdge source target kind weight) (edge_below g well)

theorem attach_edge_size (g : Graph) (source target : NodeId) (kind : Dependence) (weight : Float)
    (well : g.WellFormed) : (Edit.attach g source target kind weight).edges.size = g.edges.size + 1 :=
  Table.size_insert_above g.edges (g.lastEdge + 1) (g.newEdge source target kind weight) (edge_below g well)

theorem attach_size (g : Graph) (source target : NodeId) (kind : Dependence) (weight : Float) :
    (Edit.attach g source target kind weight).size = g.size :=
  (Table.size_modify _ _ _).trans (Table.size_modify _ _ _)

theorem get_with_end_node (g : Graph) (side : End) (id : EdgeId) (old other key : NodeId) :
    (g.withEnd side id old other).nodes.get? key =
      (g.nodes.get? key).map fun n => n.relisted (rehung id old other key (n.listing side)) side := by
  show ((g.modifyNode old _).modifyNode other _).nodes.get? key = _
  rw [get_modify_node, get_modify_node, Option.map_map]
  congr 1
  funext n
  dsimp only [rehung, Function.comp_apply]
  by_cases onto : key = other
  · by_cases off : key = old
    · cases side <;> simp only [if_pos onto, if_pos off, Node.relisted, Node.listing]
    · simp only [if_pos onto, if_neg off]
  · by_cases off : key = old
    · simp only [if_neg onto, if_pos off, List.append_nil]
    · cases side <;> simp only [if_neg onto, if_neg off, List.append_nil, Node.relisted, Node.listing]

theorem get_with_end_edge (g : Graph) (side : End) (id : EdgeId) (old other : NodeId) (key : EdgeId) :
    (g.withEnd side id old other).edges.get? key =
      if key = id then (g.edges.get? key).map fun e => e.moved other side else g.edges.get? key :=
  Table.get_modify g.edges id key _

end Graph

end LoopDeps
