set_option autoImplicit false

/- The named rules of the grammar, in the order in which a mismatch lists them. -/
namespace LoopDeps.Text

inductive Rule where
  | endOfInput | identifier | localName | globalName | number | keyword | constant
  | intType | floatType | ptrType | voidType | vectorType | type
  | value | labelRef | incoming | operand | operands
  | opcode | assign | instr | weight | block | param | params | function | program
deriving DecidableEq, Repr

namespace Rule

def all : List Rule :=
  [.endOfInput, .identifier, .localName, .globalName, .number, .keyword, .constant,
   .intType, .floatType, .ptrType, .voidType, .vectorType, .type,
   .value, .labelRef, .incoming, .operand, .operands,
   .opcode, .assign, .instr, .weight, .block, .param, .params, .function, .program]

def name : Rule → String
  | .endOfInput => "EOI"
  | .identifier => "Ident"
  | .localName => "Local"
  | .globalName => "Global"
  | .number => "Number"
  | .keyword => "Keyword"
  | .constant => "Constant"
  | .intType => "IntType"
  | .floatType => "FloatType"
  | .ptrType => "PtrType"
  | .voidType => "VoidType"
  | .vectorType => "VectorType"
  | .type => "Type"
  | .value => "Value"
  | .labelRef => "LabelRef"
  | .incoming => "Incoming"
  | .operand => "Operand"
  | .operands => "Operands"
  | .opcode => "Opcode"
  | .assign => "Assign"
  | .instr => "Instr"
  | .weight => "Weight"
  | .block => "Block"
  | .param => "Param"
  | .params => "Params"
  | .function => "Function"
  | .program => "Program"

end Rule

end LoopDeps.Text
