import LoopDeps.Graph.Basic
import LoopDeps.Graph.Body
set_option autoImplicit false

/- Data edges from the producer of each operand to its user. A value produced outside of the body
   gets a node at its first use; its weight is the sum of the weights of its uses. -/
namespace LoopDeps.DataLinks

def producerOf (f : Func) (weight : Float) (operand : ValueId) : Edit NodeId := do
  match (← get).nodeOf? operand with
  | some producer =>
      let n ← Edit.getNode producer
      if n.isExternal then Edit.changeNode producer fun n => { n with weight := n.weight + weight }
      pure producer
  | none =>
      let id ← Edit.newNodeId
      modify fun g => g.insertValueNode (Node.external id operand (f.valueName operand) weight)
      pure id

def linkOperand (f : Func) (consumer : NodeId) (weight : Float) (operand : ValueId) : Edit Unit := do
  let producer ← producerOf f weight operand
  let _ ← Edit.addEdge producer consumer .data weight

-- The number of edges that lead to the consumer.
def linkConsumer (f : Func) (consumer : NodeId) : Edit Nat := do
  let n ← Edit.getNode consumer
  match f.instr? n.value with
  | none => Edit.missing (.instruction n.value)
  | some instr =>
      instr.dataOperands.forM (linkOperand f consumer n.weight)
      pure instr.dataOperands.length

def linkConsumers (f : Func) : List NodeId → Edit Nat
  | [] => pure 0
  | consumer :: rest => do
      let here ← linkConsumer f consumer
      let later ← linkConsumers f rest
      pure (here + later)

def consumers (g : Graph) : List NodeId := (g.nodes.values.filter Node.isPlain).map Node.id

-- Whether an edge was added.
def pass (body : Body) : Edit Bool := do
  let added ← linkConsumers body.func (consumers (← get))
  pure (added != 0)

end LoopDeps.DataLinks
