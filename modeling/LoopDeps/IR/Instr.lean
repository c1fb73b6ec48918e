import LoopDeps.IR.Ty
set_option autoImplicit false

/- Instructions, and what their opcodes mean to the dependency graph. -/
namespace LoopDeps

abbrev ValueId := Nat
abbrev BlockId := Nat

inductive Cast where
  | trunc | zext | sext | fptrunc | fpext | fptoui | fptosi | uitofp | sitofp
  | ptrtoint | inttoptr | bitcast
deriving DecidableEq, Repr

namespace Cast

def text : Cast → String
  | .trunc => "trunc"
  | .zext => "zext"
  | .sext => "sext"
  | .fptrunc => "fptrunc"
  | .fpext => "fpext"
  | .fptoui => "fptoui"
  | .fptosi => "fptosi"
  | .uitofp => "uitofp"
  | .sitofp => "sitofp"
  | .ptrtoint => "ptrtoint"
  | .inttoptr => "inttoptr"
  | .bitcast => "bitcast"

def all : List Cast :=
  [.trunc, .zext, .sext, .fptrunc, .fpext, .fptoui, .fptosi, .uitofp, .sitofp,
   .ptrtoint, .inttoptr, .bitcast]

def ofOpcode? (opcode : String) : Option Cast := all.find? fun conversion => conversion.text == opcode

-- Changes of width from integer to integer only.
def isInteger : Cast → Bool
  | .trunc | .zext | .sext => true
  | _ => false

end Cast

inductive MemoryOp where
  | load
  | store
deriving DecidableEq, Repr

inductive InstrKind where
  | compute
  | cast (conversion : Cast)
  | memory (op : MemoryOp)
  -- A phi: any one of the incoming values is enough to fire it.
  | merge
  | address
deriving DecidableEq, Repr

namespace InstrKind

-- Unknown opcodes are plain computations.
def ofOpcode (opcode : String) : InstrKind :=
  if opcode == "load" then .memory .load
  else if opcode == "store" then .memory .store
  else if opcode == "phi" then .merge
  else if opcode == "getelementptr" || opcode == "gep" then .address
  else match Cast.ofOpcode? opcode with
    | some conversion => .cast conversion
    | none => .compute

def isMemory : InstrKind → Bool
  | .memory _ => true
  | _ => false

def text : InstrKind → String
  | .compute => "compute"
  | .cast conversion => "cast." ++ conversion.text
  | .memory .load => "memory.load"
  | .memory .store => "memory.store"
  | .merge => "merge"
  | .address => "address"

end InstrKind

structure Instr where
  name : Option String
  opcode : String
  type : Ty
  operands : List ValueId
  -- Branch targets in the order they were written.
  targets : List BlockId
  block : BlockId
deriving DecidableEq, Repr

namespace Instr

def kind (instr : Instr) : InstrKind := InstrKind.ofOpcode instr.opcode

-- The operands whose values flow in. The address a store writes to is where the result goes.
def dataOperands (instr : Instr) : List ValueId :=
  match instr.kind with
  | .memory .store => instr.operands.dropLast
  | _ => instr.operands

end Instr

end LoopDeps
