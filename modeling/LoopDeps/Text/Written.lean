set_option autoImplicit false

/- A module as it is written: names are not resolved yet, and numbers are still their spellings. -/
namespace LoopDeps.Text

inductive WrittenType where
  | void
  | half
  | float
  | double
  | fp128
  | ptr
  | int (bits : String)
  | vector (length : String) (element : WrittenType)
deriving DecidableEq, Repr

inductive WrittenValue where
  | name (name : String)
  | global (name : String)
  | constant (text : String)
deriving DecidableEq, Repr

inductive WrittenOperand where
  | value (value : WrittenValue)
  -- A value of a phi and the block it comes from.
  | incoming (value : WrittenValue) (block : String)
  | label (block : String)
deriving DecidableEq, Repr

structure WrittenInstr where
  result : Option String
  opcode : String
  type : Option WrittenType
  operands : List WrittenOperand
deriving DecidableEq, Repr

structure WrittenBlock where
  label : String
  weight : Option String
  instrs : List WrittenInstr
deriving DecidableEq, Repr

structure WrittenParam where
  name : String
  type : WrittenType
deriving DecidableEq, Repr

structure WrittenFunction where
  name : String
  params : List WrittenParam
  blocks : List WrittenBlock
deriving DecidableEq, Repr

end LoopDeps.Text
