import LoopDeps.Graph.Basic
import LoopDeps.Graph.Body
set_option autoImplicit false

/- Address computations replaced by the arithmetic they stand for, base plus index times size:
   size feeds a multiplication, that feeds the second addition, that feeds the first one, and the
   first one feeds the users of the address. The base goes into the first addition, the first index
   into the second one, and everything else into the multiplication. -/
namespace LoopDeps.AddressChains

structure Chain where
  add1 : NodeId
  add2 : NodeId
  multiply : NodeId
  size : NodeId
deriving DecidableEq, Repr

namespace Chain

-- Where the value at a position of the operands goes. Values that are no operand have no position.
def entryOf (chain : Chain) : Option Nat → NodeId
  | some 0 => chain.add1
  | some 1 => chain.add2
  | _ => chain.multiply

def toList (chain : Chain) : List NodeId := [chain.add1, chain.add2, chain.multiply, chain.size]

end Chain

def isAddress (f : Func) (n : Node) : Bool :=
  n.isPlain && (f.instr? n.value).any fun instr => instr.kind == .address

def addNode (value : ValueId) (weight : Float) (role : ChainRole) : Edit NodeId := do
  let id ← Edit.newNodeId
  modify fun g => g.insertChainNode (Node.chain id value role weight)
  pure id

def addChain (value : ValueId) (weight : Float) : Edit Chain := do
  let add1 ← addNode value weight .add1
  let add2 ← addNode value weight .add2
  let multiply ← addNode value weight .multiply
  let size ← addNode value weight .size
  pure ⟨add1, add2, multiply, size⟩

def enter (operands : List ValueId) (chain : Chain) (id : EdgeId) : Edit Unit := do
  let e ← Edit.getEdge id
  let source ← Edit.getNode e.source
  Edit.moveTarget id (chain.entryOf (operands.idxOf? source.value))

def expand (f : Func) (id : NodeId) : Edit Unit := do
  let n ← Edit.getNode id
  let operands := (f.instr? n.value).elim [] Instr.operands
  let chain ← addChain n.value n.weight
  n.outgoing.forM fun e => Edit.moveSource e chain.add1
  n.incoming.forM (enter operands chain)
  let _ ← Edit.addEdge chain.size chain.multiply .data n.weight
  let _ ← Edit.addEdge chain.multiply chain.add2 .data n.weight
  let _ ← Edit.addEdge chain.add2 chain.add1 .data n.weight

def staged (f : Func) (g : Graph) : List NodeId := (g.nodes.values.filter (isAddress f)).map Node.id

-- Whether there was an address computation.
def pass (body : Body) : Edit Bool := do
  let ids := staged body.func (← get)
  ids.forM (expand body.func)
  modify fun g => g.removeNodes ids
  pure (!ids.isEmpty)

end LoopDeps.AddressChains
