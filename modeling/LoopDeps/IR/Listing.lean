import LoopDeps.IR.Func
import LoopDeps.Decimal.Shortest
set_option autoImplicit false

/- The text of a function: one line per block label and one per instruction. -/
namespace LoopDeps

namespace Func

def labelOf (f : Func) (id : BlockId) : String := (f.block? id).elim "" Block.label

def operandTexts (f : Func) (instr : Instr) : List String :=
  instr.operands.map f.valueName ++ instr.targets.map fun target => "label %" ++ f.labelOf target

def instrText (f : Func) (id : ValueId) (instr : Instr) : String :=
  let typed := instr.type != Ty.void
  let result := if instr.name.isSome || typed then f.valueName id ++ " = " else ""
  let type := if typed then " " ++ instr.type.text else ""
  let operands := String.intercalate ", " (f.operandTexts instr)
  "  " ++ result ++ instr.opcode ++ type ++ (if operands.isEmpty then "" else " " ++ operands)

-- Reserved slots that were never filled have no line.
def instrLines (f : Func) (block : Block) : List String :=
  block.instrs.filterMap fun id => (f.instr? id).map fun instr => f.instrText id instr ++ "\n"

def blockText (f : Func) (block : Block) : String :=
  block.label ++ ": !weight " ++ Decimal.text block.weight ++ "\n" ++ String.join (f.instrLines block)

def text (f : Func) : String :=
  "func @" ++ f.name ++ " \x7b\n" ++ String.join (f.blocks.map f.blockText) ++ "\x7d"

end Func

end LoopDeps
