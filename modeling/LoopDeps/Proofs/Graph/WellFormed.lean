import LoopDeps.Graph.Backedges
set_option autoImplicit false

/- What holds of a graph between any two edits: every edge is listed once at each of its ends, and
   the indexes beside the nodes tell the truth about them. Each change that the edits are made of
   keeps it. -/
namespace LoopDeps

-- The two ends of an edge, and with them the two listings of a node.
inductive End where
  | source
  | target
deriving DecidableEq, Repr

namespace Edge

def endAt (e : Edge) : End → NodeId
  | .source => e.source
  | .target => e.target

def moved (e : Edge) (other : NodeId) : End → Edge
  | .source => { e with source := other }
  | .target => { e with target := other }

end Edge

namespace Node

def listing (n : Node) : End → List EdgeId
  | .source => n.outgoing
  | .target => n.incoming

def relisted (n : Node) (ids : List EdgeId) : End → Node
  | .source => { n with outgoing := ids }
  | .target => { n with incoming := ids }

-- All that the indexes of a graph see of a node.
def identity (n : Node) : NodeId × ValueId × Option ChainRole := (n.id, n.value, n.role)

end Node

namespace Graph

-- A listed id names an edge with that end at the node, so it is in no other listing of its kind.
structure Mirrored (g : Graph) : Prop where
  edgeKeys : ∀ id e, g.edges.get? id = some e → e.id = id
  listed : ∀ side id e, g.edges.get? id = some e →
    ∃ n, g.nodes.get? (e.endAt side) = some n ∧ (n.listing side).count id = 1
  recorded : ∀ side key n id, g.nodes.get? key = some n → id ∈ n.listing side →
    ∃ e, g.edges.get? id = some e ∧ e.endAt side = key

structure Indexed (g : Graph) : Prop where
  nodeKeys : ∀ id n, g.nodes.get? id = some n → n.id = id
  nodeBound : ∀ id n, g.nodes.get? id = some n → id ≤ g.lastNode
  valueNodes : ∀ value id, g.byValue.get? value = some id →
    ∃ n, g.nodes.get? id = some n ∧ n.value = value ∧ n.role = none
  chainOnce : g.chain.Nodup
  chainNodes : ∀ id, id ∈ g.chain ↔ ∃ n, g.nodes.get? id = some n ∧ n.role ≠ none

-- No id above the last one handed out is in use.
structure WellFormed (g : Graph) : Prop where
  mirrored : g.Mirrored
  indexed : g.Indexed
  edgeBound : ∀ id e, g.edges.get? id = some e → id ≤ g.lastEdge

theorem new_well_formed (loopId : Nat) : (new loopId).WellFormed := by
  have noNode : ∀ key n, (new loopId).nodes.get? key ≠ some n := fun _ _ found => nomatch found
  have noEdge : ∀ key e, (new loopId).edges.get? key ≠ some e := fun _ _ found => nomatch found
  refine ⟨⟨?_, ?_, ?_⟩, ⟨?_, ?_, ?_, List.nodup_nil, ?_⟩, ?_⟩
  · exact fun id e found => absurd found (noEdge id e)
  · exact fun _ id e found => absurd found (noEdge id e)
  · exact fun _ key n _ found => absurd found (noNode key n)
  · exact fun id n found => absurd found (noNode id n)
  · exact fun id n found => absurd found (noNode id n)
  · exact fun _ _ found => nomatch found
  · intro id
    constructor
    · intro member
      cases member
    · rintro ⟨n, found, _⟩
      exact absurd found (noNode id n)
  · exact fun id e found => absurd found (noEdge id e)

theorem get_modify_node (g : Graph) (id key : NodeId) (f : Node → Node) :
    (g.modifyNode id f).nodes.get? key =
      (g.nodes.get? key).map fun n => if key = id then f n else n := by
  refine (Table.get_modify g.nodes id key f).trans ?_
  by_cases same : key = id
  · simp only [if_pos same]
  · simp only [if_neg same, Option.map_id']

theorem listing_relisted (n : Node) (ids : List EdgeId) (side other : End) :
    (n.relisted ids side).listing other = if other = side then ids else n.listing other := by
  cases side <;> cases other <;> rfl

theorem identity_relisted (n : Node) (ids : List EdgeId) (side : End) :
    (n.relisted ids side).identity = n.identity := by
  cases side <;> rfl

theorem end_moved (e : Edge) (key : NodeId) (side other : End) :
    (e.moved key side).endAt other = if other = side then key else e.endAt other := by
  cases side <;> cases other <;> rfl

theorem id_moved (e : Edge) (key : NodeId) (side : End) : (e.moved key side).id = e.id := by
  cases side <;> rfl

-- The indexes look at nothing but the identities.
theorem indexed_of_changes (g next : Graph) (change : NodeId → Node → Node) (indexed : g.Indexed)
    (nodes : ∀ key, next.nodes.get? key = (g.nodes.get? key).map (change key))
    (identity : ∀ key n, (change key n).identity = n.identity) (byValue : next.byValue = g.byValue)
    (chain : next.chain = g.chain) (lastNode : next.lastNode = g.lastNode) : next.Indexed := by
  have sameId : ∀ key n, (change key n).id = n.id := fun key n => congrArg (·.1) (identity key n)
  have sameValue : ∀ key n, (change key n).value = n.value := fun key n => congrArg (·.2.1) (identity key n)
  have sameRole : ∀ key n, (change key n).role = n.role := fun key n => congrArg (·.2.2) (identity key n)
  refine ⟨?_, ?_, ?_, chain ▸ indexed.chainOnce, ?_⟩
  · intro key m found
    obtain ⟨n, old, rfl⟩ := Option.map_eq_some_iff.mp ((nodes key).symm.trans found)
    exact (sameId key n).trans (indexed.nodeKeys key n old)
  · intro key m found
    obtain ⟨n, old, _⟩ := Option.map_eq_some_iff.mp ((nodes key).symm.trans found)
    exact lastNode ▸ indexed.nodeBound key n old
  · intro value key held
    obtain ⟨n, old, sameKept, plain⟩ := indexed.valueNodes value key (byValue ▸ held)
    exact ⟨change key n, by rw [nodes, old]; rfl, (sameValue key n).trans sameKept, (sameRole key n).trans plain⟩
  · intro key
    rw [chain, indexed.chainNodes key, nodes key]
    constructor
    · rintro ⟨n, old, role⟩
      exact ⟨change key n, by rw [old]; rfl, (sameRole key n).symm ▸ role⟩
    · rintro ⟨m, found, role⟩
      obtain ⟨n, old, rfl⟩ := Option.map_eq_some_iff.mp found
      exact ⟨n, old, sameRole key n ▸ role⟩

-- Changes of single nodes and edges that no listing and no index sees.
theorem well_formed_of_changes (g next : Graph) (change : NodeId → Node → Node) (mark : Edge → Edge)
    (well : g.WellFormed) (nodes : ∀ key, next.nodes.get? key = (g.nodes.get? key).map (change key))
    (edges : ∀ id, next.edges.get? id = (g.edges.get? id).map mark)
    (identity : ∀ key n, (change key n).identity = n.identity)
    (listing : ∀ key n side, (change key n).listing side = n.listing side)
    (markId : ∀ e, (mark e).id = e.id) (markEnd : ∀ e side, (mark e).endAt side = e.endAt side)
    (byValue : next.byValue = g.byValue) (chain : next.chain = g.chain)
    (lastNode : next.lastNode = g.lastNode) (lastEdge : next.lastEdge = g.lastEdge) :
    next.WellFormed := by
  refine ⟨⟨?_, ?_, ?_⟩,
    indexed_of_changes g next change well.indexed nodes identity byValue chain lastNode, ?_⟩
  · intro id marked found
    obtain ⟨e, old, rfl⟩ := Option.map_eq_some_iff.mp ((edges id).symm.trans found)
    exact (markId e).trans (well.mirrored.edgeKeys id e old)
  · intro side id marked found
    obtain ⟨e, old, rfl⟩ := Option.map_eq_some_iff.mp ((edges id).symm.trans found)
    obtain ⟨n, node, once⟩ := well.mirrored.listed side id e old
    exact ⟨change (e.endAt side) n, by rw [markEnd, nodes, node]; rfl, (listing _ n side).symm ▸ once⟩
  · intro side key m id found member
    obtain ⟨n, node, rfl⟩ := Option.map_eq_some_iff.mp ((nodes key).symm.trans found)
    obtain ⟨e, old, there⟩ := well.mirrored.recorded side key n id node (listing key n side ▸ member)
    exact ⟨mark e, by rw [edges, old]; rfl, (markEnd e side).trans there⟩
  · intro id marked found
    obtain ⟨e, old, _⟩ := Option.map_eq_some_iff.mp ((edges id).symm.trans found)
    exact lastEdge ▸ well.edgeBound id e old

end Graph

end LoopDeps
