import LoopDeps.Graph.Basic
import LoopDeps.Graph.Body
set_option autoImplicit false

/- One node for each instruction of a body. -/
namespace LoopDeps

namespace Graph

def numTypeOf (instr : Instr) : NumType :=
  match instr.kind with
  | .cast conversion => if conversion.isInteger then .integer else .float
  | _ =>
      if instr.type.isFloat then .float
      else if instr.type.isVector then .vector
      else .integer

-- A merge fires on its first value and takes no time.
def nodeOf (id : NodeId) (i : BodyInstr) : Node :=
  { Node.instruction id i.id i.instr.opcode with
    weight := i.weight
    category := if i.instr.kind.isMemory then .memory else .compute
    numType := numTypeOf i.instr
    readiness := if i.instr.kind = .merge then .anyOperand else .allOperands
    latency := if i.instr.kind = .merge then 0 else 1 }

def addInstr (g : Graph) (i : BodyInstr) : Graph :=
  let id := g.lastNode + 1
  { g with lastNode := id }.insertValueNode (nodeOf id i)

def ofBody (body : Body) : Except LoopError Graph :=
  let g := body.instrs.foldl addInstr (new body.loopId)
  if g.size = 0 then .error (.emptyLoop body.loopId)
  else .ok { g with coverage := body.coverage }

end Graph

end LoopDeps
