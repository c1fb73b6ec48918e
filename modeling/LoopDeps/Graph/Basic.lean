import LoopDeps.Graph.Node
import LoopDeps.Table
set_option autoImplicit false

/- The dependency graph of one loop, and the edits it is made by. Every edge is one record, listed
   by its source as outgoing and by its target as incoming. -/
namespace LoopDeps

-- What an edit or a pass looked for in vain.
inductive Missing where
  | node (id : NodeId)
  | edge (id : EdgeId)
  | edgeSource (id : NodeId)
  | edgeTarget (id : NodeId)
  | terminator (label : String)
  | instruction (value : ValueId)
deriving DecidableEq, Repr

namespace Missing

def text : Missing → String
  | .node id => "node " ++ toString id
  | .edge id => "edge " ++ toString id
  | .edgeSource id => "edge source " ++ toString id
  | .edgeTarget id => "edge target " ++ toString id
  | .terminator label => "terminator of " ++ label
  | .instruction value => "instruction v" ++ toString value

end Missing

-- Why a loop has no graph, or no complete output.
inductive LoopError where
  | wideBranch (loopId : Nat) (label : String) (successors : Nat)
  | missing (loopId : Nat) (what : Missing)
  | emptyLoop (loopId : Nat)
  | system (reason : String)
deriving DecidableEq, Repr

namespace LoopError

def message : LoopError → String
  | .wideBranch loopId label successors =>
      "loop " ++ toString loopId ++ ": block '" ++ label ++ "' has " ++ toString successors ++
        " successors, at most 2 are supported"
  | .missing loopId what => "loop " ++ toString loopId ++ ": no graph node for " ++ what.text
  | .emptyLoop loopId => "loop " ++ toString loopId ++ " has no instructions"
  | .system reason => "system error: " ++ reason

end LoopError

structure Graph where
  loopId : Nat
  nodes : Table Node
  edges : Table Edge
  -- The node that stands for each value.
  byValue : Table NodeId
  -- The nodes of address chains, which stand for no value of their own.
  chain : List NodeId
  coverage : Float
  -- The last ids handed out. Ids start at one.
  lastNode : NodeId
  lastEdge : EdgeId

namespace Graph

def new (loopId : Nat) : Graph :=
  ⟨loopId, Table.empty, Table.empty, Table.empty, [], 0.0, 0, 0⟩

def size (g : Graph) : Nat := g.nodes.size

def nodeOf? (g : Graph) (value : ValueId) : Option NodeId := g.byValue.get? value

def weightOf (g : Graph) (id : NodeId) : Float := (g.nodes.get? id).elim 0.0 Node.weight

def edgesOf (g : Graph) (ids : List EdgeId) : List Edge := ids.filterMap g.edges.get?

def outgoing (g : Graph) (n : Node) : List Edge := g.edgesOf n.outgoing

def incoming (g : Graph) (n : Node) : List Edge := g.edgesOf n.incoming

def forwardOutgoing (g : Graph) (n : Node) : List Edge := (g.outgoing n).filter fun e => !e.backedge

def forwardIncoming (g : Graph) (n : Node) : List Edge := (g.incoming n).filter fun e => !e.backedge

def hasDataEdge (g : Graph) (source target : NodeId) : Bool :=
  match g.nodes.get? source with
  | none => false
  | some n => (g.outgoing n).any fun e => e.kind == .data && e.target == target

def modifyNode (g : Graph) (id : NodeId) (f : Node → Node) : Graph :=
  { g with nodes := g.nodes.modify id f }

-- Inserts a node that stands for its value.
def insertValueNode (g : Graph) (n : Node) : Graph :=
  { g with byValue := g.byValue.insert n.value n.id, nodes := g.nodes.insert n.id n }

def insertChainNode (g : Graph) (n : Node) : Graph :=
  { g with chain := g.chain ++ [n.id], nodes := g.nodes.insert n.id n }

def removeNode (g : Graph) (id : NodeId) : Graph :=
  match g.nodes.get? id with
  | none => g
  | some n =>
      { g with
        nodes := g.nodes.erase id
        byValue := if g.byValue.get? n.value = some id then g.byValue.erase n.value else g.byValue }

-- For nodes that no edge refers to any more.
def removeNodes (g : Graph) (ids : List NodeId) : Graph :=
  let g := ids.foldl removeNode g
  { g with chain := g.chain.filter fun id => !ids.contains id }

end Graph

-- A step that edits the graph. A failing step keeps what it did before it failed.
abbrev Edit := EStateM LoopError Graph

namespace Edit

def missing {α : Type} (what : Missing) : Edit α := do
  throw (.missing (← get).loopId what)

def getNode (id : NodeId) : Edit Node := do
  match (← get).nodes.get? id with
  | some n => pure n
  | none => missing (.node id)

def getEdge (id : EdgeId) : Edit Edge := do
  match (← get).edges.get? id with
  | some e => pure e
  | none => missing (.edge id)

def changeNode (id : NodeId) (f : Node → Node) : Edit Unit := do
  let _ ← getNode id
  modify fun g => g.modifyNode id f

def newNodeId : Edit NodeId := do
  let id := (← get).lastNode + 1
  modify fun g => { g with lastNode := id }
  pure id

-- The record of a new edge and its two listings.
def attach (g : Graph) (source target : NodeId) (kind : Dependence) (weight : Float) : Graph :=
  let id := g.lastEdge + 1
  let linked := { g with
    lastEdge := id
    edges := g.edges.insert id ⟨id, kind, weight, source, target, false⟩ }
  (linked.modifyNode source fun n => { n with outgoing := n.outgoing ++ [id] }).modifyNode target
    fun n => { n with incoming := n.incoming ++ [id] }

def addEdge (source target : NodeId) (kind : Dependence) (weight : Float) : Edit EdgeId := do
  let g ← get
  if !g.nodes.contains source then missing (.edgeSource source)
  else if !g.nodes.contains target then missing (.edgeTarget target)
  else
    set (attach g source target kind weight)
    pure (g.lastEdge + 1)

-- Attaches the source end of an edge elsewhere. The old end is taken off first.
def moveSource (id : EdgeId) (other : NodeId) : Edit Unit := do
  let e ← getEdge id
  changeNode e.source fun n => { n with outgoing := n.outgoing.filter (· != id) }
  changeNode other fun n => { n with outgoing := n.outgoing ++ [id] }
  modify fun g => { g with edges := g.edges.modify id fun e => { e with source := other } }

def moveTarget (id : EdgeId) (other : NodeId) : Edit Unit := do
  let e ← getEdge id
  changeNode e.target fun n => { n with incoming := n.incoming.filter (· != id) }
  changeNode other fun n => { n with incoming := n.incoming ++ [id] }
  modify fun g => { g with edges := g.edges.modify id fun e => { e with target := other } }

end Edit

end LoopDeps
