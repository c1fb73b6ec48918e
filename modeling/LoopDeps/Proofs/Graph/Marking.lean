import LoopDeps.Proofs.Graph.Rewiring
import LoopDeps.Proofs.Graph.Stages
set_option autoImplicit false

/- A finished graph. The counters of a node tell how many edges of each of its listings are backedges, and the
   others are all forward edges there are, seen from their sources as well as from their targets. -/
namespace LoopDeps

namespace Node

-- The counter kept beside each listing.
def backedgesAt (n : Node) : End → Nat
  | .source => n.backedgesOut
  | .target => n.backedgesIn

end Node

namespace Graph

def edgesAt (g : Graph) (side : End) (n : Node) : List Edge := g.edgesOf (n.listing side)

def forwardAt (g : Graph) (side : End) (n : Node) : List Edge := (g.edgesAt side n).filter fun e => !e.backedge

def forwardEdges (g : Graph) : List Edge := g.edges.values.filter fun e => !e.backedge

structure Finished (g : Graph) : Prop where
  well : g.WellFormed
  counted : ∀ side key n, g.nodes.get? key = some n →
    n.backedgesAt side = (g.edgesAt side n).countP Edge.backedge

theorem mem_edges_of (g : Graph) (mirrored : g.Mirrored) (ids : List EdgeId) (e : Edge) :
    e ∈ g.edgesOf ids ↔ e.id ∈ ids ∧ g.edges.get? e.id = some e := by
  rw [edgesOf, List.mem_filterMap]
  constructor
  · rintro ⟨id, member, found⟩
    rw [mirrored.edgeKeys id e found]
    exact ⟨member, found⟩
  · rintro ⟨member, found⟩
    exact ⟨e.id, member, found⟩

theorem edges_of_nodup (g : Graph) (mirrored : g.Mirrored) (ids : List EdgeId) (once : ids.Nodup) :
    (g.edgesOf ids).Nodup := by
  refine once.filterMap fun first second e held again => ?_
  exact (mirrored.edgeKeys first e held).symm.trans (mirrored.edgeKeys second e again)

section

variable (g : Graph) (mirrored : g.Mirrored) (side : End)

include mirrored

theorem mem_edges_at (key : NodeId) (n : Node) (node : g.nodes.get? key = some n) (e : Edge) :
    e ∈ g.edgesAt side n ↔ e.endAt side = key ∧ g.edges.get? e.id = some e := by
  rw [edgesAt, mem_edges_of g mirrored]
  refine and_congr_left fun found => ?_
  exact mem_listing g mirrored side key n node e.id e found

theorem edges_at_nodup (key : NodeId) (n : Node) (node : g.nodes.get? key = some n) : (g.edgesAt side n).Nodup :=
  edges_of_nodup g mirrored _ (listing_nodup g mirrored side key n node)

-- No listed id is without its edge.
theorem edges_at_length (key : NodeId) (n : Node) (node : g.nodes.get? key = some n) :
    (g.edgesAt side n).length = (n.listing side).length := by
  rw [edgesAt, edgesOf, List.length_filterMap_eq_countP]
  refine List.countP_eq_length.mpr fun id member => ?_
  obtain ⟨e, found, _⟩ := mirrored.recorded side key n id node member
  rw [found]
  rfl

theorem mem_edge_values (e : Edge) : e ∈ g.edges.values ↔ g.edges.get? e.id = some e := by
  rw [Table.mem_values]
  constructor
  · rintro ⟨id, found⟩
    rwa [mirrored.edgeKeys id e found]
  · exact fun found => ⟨e.id, found⟩

theorem edge_values_nodup : g.edges.values.Nodup := by
  have keys : g.edges.values.map Edge.id = g.edges.keys := by
    simp only [Table.values, Table.keys, List.map_map]
    refine List.map_congr_left fun entry member => ?_
    exact mirrored.edgeKeys entry.1 entry.2 (Table.get_eq_some.mpr member)
  exact List.Nodup.of_map Edge.id (keys ▸ g.edges.keys_nodup)

end

theorem mem_node_values (g : Graph) (indexed : g.Indexed) (n : Node) :
    n ∈ g.nodes.values ↔ g.nodes.get? n.id = some n := by
  rw [Table.mem_values]
  constructor
  · rintro ⟨id, found⟩
    rwa [indexed.nodeKeys id n found]
  · exact fun found => ⟨n.id, found⟩

-- Going over the listings of one kind meets every forward edge once.
theorem forward_listed_once (g : Graph) (well : g.WellFormed) (side : End) :
    (g.nodes.values.flatMap (g.forwardAt side)).Perm g.forwardEdges := by
  have ends : ∀ n ∈ g.nodes.values, ∀ e, e ∈ g.edgesAt side n ↔ e.endAt side = n.id ∧ g.edges.get? e.id = some e :=
    fun n member => mem_edges_at g well.mirrored side n.id n ((mem_node_values g well.indexed n).mp member)
  refine (List.perm_ext_iff_of_nodup ?_ ((edge_values_nodup g well.mirrored).filter _)).mpr fun e => ?_
  · refine List.nodup_flatMap.mpr ⟨fun n member => ?_, ?_⟩
    · exact (edges_at_nodup g well.mirrored side n.id n ((mem_node_values g well.indexed n).mp member)).filter _
    · have apart : (g.nodes.values.map Node.id).Nodup := by
        rw [AddressChains.ids_eq_keys g well.indexed]
        exact g.nodes.keys_nodup
      refine (List.pairwise_map.mp apart).imp_of_mem fun {n m} first second different e here there => ?_
      have source := ((ends n first e).mp (List.mem_of_mem_filter here)).1
      exact different (source.symm.trans ((ends m second e).mp (List.mem_of_mem_filter there)).1)
  · rw [List.mem_filter, List.mem_flatMap, mem_edge_values g well.mirrored]
    constructor
    · rintro ⟨n, member, listed⟩
      obtain ⟨inListing, forward⟩ := List.mem_filter.mp listed
      exact ⟨((ends n member e).mp inListing).2, forward⟩
    · rintro ⟨found, forward⟩
      obtain ⟨n, node, _⟩ := well.mirrored.listed side e.id e found
      have member : n ∈ g.nodes.values := Table.mem_values.mpr ⟨_, node⟩
      have key : n.id = e.endAt side := well.indexed.nodeKeys _ n node
      exact ⟨n, member, List.mem_filter.mpr ⟨(ends n member e).mpr ⟨key.symm, found⟩, forward⟩⟩

-- What is left of a listing without its backedges is as long as the counters say.
theorem forward_count (g : Graph) (finished : g.Finished) (side : End) (key : NodeId) (n : Node)
    (node : g.nodes.get? key = some n) :
    (g.forwardAt side n).length + n.backedgesAt side = (n.listing side).length := by
  rw [finished.counted side key n node, ← edges_at_length g finished.well.mirrored side key n node, forwardAt,
    ← List.countP_eq_length_filter, Nat.add_comm, List.length_eq_countP_add_countP Edge.backedge]
  simp only [Bool.not_eq_true, Bool.decide_eq_false]

end Graph

namespace Backedges

open Search

theorem marked_once (g : Graph) (mirrored : g.Mirrored) : (search g).marked.Nodup :=
  (examined_once g mirrored).2.nodup (examined_once g mirrored).1

theorem edges_of_annotate (g : Graph) (s : Search) (ids : List EdgeId) :
    (annotate g s).edgesOf ids = (g.edgesOf ids).map fun e => { e with backedge := s.marked.contains e.id } := by
  rw [Graph.edgesOf, Graph.edgesOf, List.map_filterMap]
  refine List.filterMap_congr fun id _ => ?_
  exact Table.get_map _ g.edges id

theorem annotate_finished (g : Graph) (well : g.WellFormed) : (annotate g (search g)).Finished := by
  refine ⟨annotate_well_formed g _ well, ?_⟩
  intro side key noted found
  rw [get_annotate_node] at found
  obtain ⟨n, node, rfl⟩ := Option.map_eq_some_iff.mp found
  have listing : (noted g (search g) n).listing side = n.listing side := by cases side <;> rfl
  have counter : (noted g (search g) n).backedgesAt side =
      ((g.edgesOf (search g).marked).filter fun e => e.endAt side == n.id).length := by cases side <;> rfl
  have onto : ∀ e, e ∈ g.edgesAt side n ↔ e.endAt side = n.id ∧ g.edges.get? e.id = some e :=
    well.indexed.nodeKeys key n node ▸ Graph.mem_edges_at g well.mirrored side key n node
  rw [counter, Graph.edgesAt, listing, edges_of_annotate, List.countP_map, List.countP_eq_length_filter]
  -- Both lists hold the marked edges at this node, and each of them once.
  refine List.Perm.length_eq ((List.perm_ext_iff_of_nodup ?_ ?_).mpr fun e => ?_)
  · exact (Graph.edges_of_nodup g well.mirrored _ (marked_once g well.mirrored)).filter _
  · exact (Graph.edges_at_nodup g well.mirrored side key n node).filter _
  · have split := onto e
    rw [Graph.edgesAt] at split
    rw [List.mem_filter, List.mem_filter, split, Graph.mem_edges_of g well.mirrored]
    simp only [Function.comp_apply, List.contains_iff_mem, beq_iff_eq]
    exact ⟨fun ⟨⟨marked, there⟩, ends⟩ => ⟨⟨ends, there⟩, marked⟩,
      fun ⟨⟨ends, there⟩, marked⟩ => ⟨⟨marked, there⟩, ends⟩⟩

end Backedges

namespace Graph

theorem construct_finished (body : Body) (pdom : ControlLinks.PostDominates) (g : Graph)
    (built : construct body pdom = .ok g) : g.Finished := by
  obtain ⟨start, linked, controlled, middle, started, completed⟩ := construct_completed body pdom g built
  have well := completed_well_formed body pdom start linked controlled middle g (of_body_placed body start started).well
    completed
  rw [completed.graphs] at well
  rw [completed.last]
  exact Backedges.annotate_finished _ (well _ (by simp))

end Graph

end LoopDeps
