import LoopDeps.Proofs.Text.Lexing
import LoopDeps.Proofs.Text.Defining
set_option autoImplicit false

/- Modules as they are before they are written, and the text that a module is written as. -/
namespace LoopDeps

namespace Ty

-- Widths and lengths are words.
def Fits : Ty → Prop
  | .int bits => bits < Nat.pow 2 32
  | .vector length element => length < Nat.pow 2 32 ∧ element.Fits
  | _ => True

instance decidableFits : (ty : Ty) → Decidable ty.Fits
  | .int bits => inferInstanceAs (Decidable (bits < Nat.pow 2 32))
  | .vector length element =>
      have := decidableFits element
      inferInstanceAs (Decidable (length < Nat.pow 2 32 ∧ element.Fits))
  | .void | .half | .float | .double | .fp128 | .ptr => inferInstanceAs (Decidable True)

def written : Ty → Text.WrittenType
  | .void => .void
  | .int bits => .int (toString bits)
  | .half => .half
  | .float => .float
  | .double => .double
  | .fp128 => .fp128
  | .ptr => .ptr
  | .vector length element => .vector (toString length) element.written

end Ty

namespace Source

open Text (WrittenValue WrittenOperand WrittenInstr WrittenBlock WrittenParam WrittenFunction IsName IsIdentifier
  IsOpcode IsKeyword IsNumber)

structure Param where
  name : String
  type : Ty
deriving DecidableEq, Repr

structure Instr where
  result : Option String
  opcode : String
  type : Ty
  -- Whether to write the type even if there is no value.
  typed : Bool
  operands : List WrittenOperand
deriving DecidableEq, Repr

structure Block where
  label : String
  weight : String
  instrs : List Instr
deriving DecidableEq, Repr

structure Function where
  name : String
  params : List Param
  blocks : List Block
deriving DecidableEq, Repr

def listed (texts : List String) : String := String.intercalate ", " texts

theorem listed_chars (first : String) (others : List String) :
    (listed (first :: others)).toList = first.toList ++ others.flatMap fun one => ',' :: ' ' :: one.toList := by
  induction others generalizing first with
  | nil => simp [listed]
  | cons next others ih =>
      have later := ih next
      rw [listed] at later ⊢
      rw [String.intercalate_cons_cons, String.toList_append, later]
      simp

def operandText : WrittenOperand → String
  | .value value => value.spelling
  | .incoming value block => "[" ++ value.spelling ++ ", %" ++ block ++ "]"
  | .label block => "label %" ++ block

def IsValue : WrittenValue → Prop
  | .name text => IsName text
  | .global text => IsName text
  | .constant text => IsNumber text ∨ IsKeyword text

instance : (value : WrittenValue) → Decidable (IsValue value)
  | .name text => inferInstanceAs (Decidable (IsName text))
  | .global text => inferInstanceAs (Decidable (IsName text))
  | .constant text => inferInstanceAs (Decidable (IsNumber text ∨ IsKeyword text))

def IsOperand : WrittenOperand → Prop
  | .value value => IsValue value
  | .incoming value block => IsValue value ∧ IsName block
  | .label block => IsName block

instance : (operand : WrittenOperand) → Decidable (IsOperand operand)
  | .value value => inferInstanceAs (Decidable (IsValue value))
  | .incoming value block => inferInstanceAs (Decidable (IsValue value ∧ IsName block))
  | .label block => inferInstanceAs (Decidable (IsName block))

namespace Instr

def hasType (instr : Instr) : Bool := instr.typed || instr.type != .void

def resultText (instr : Instr) : String := instr.result.elim "" fun name => "%" ++ name ++ " = "

def typeText (instr : Instr) : String := if instr.hasType then " " ++ instr.type.text else ""

def operandsText (instr : Instr) : String :=
  if instr.operands.isEmpty then "" else " " ++ listed (instr.operands.map operandText)

def text (instr : Instr) : String :=
  "  " ++ instr.resultText ++ instr.opcode ++ instr.typeText ++ instr.operandsText ++ "\n"

def written (instr : Instr) : WrittenInstr where
  result := instr.result
  opcode := instr.opcode
  type := if instr.hasType then some instr.type.written else none
  operands := instr.operands

structure Valid (instr : Instr) : Prop where
  result : ∀ name ∈ instr.result, IsName name
  opcode : IsOpcode instr.opcode
  type : instr.type.Fits
  operands : ∀ operand ∈ instr.operands, IsOperand operand

theorem valid_iff (instr : Instr) : instr.Valid ↔ (∀ name ∈ instr.result, IsName name) ∧ IsOpcode instr.opcode ∧
    instr.type.Fits ∧ ∀ operand ∈ instr.operands, IsOperand operand :=
  ⟨fun valid => ⟨valid.result, valid.opcode, valid.type, valid.operands⟩,
    fun ⟨result, opcode, type, operands⟩ => ⟨result, opcode, type, operands⟩⟩

instance (instr : Instr) : Decidable instr.Valid := decidable_of_iff _ instr.valid_iff.symm

end Instr

namespace Block

def text (block : Block) : String :=
  block.label ++ ": !weight " ++ block.weight ++ "\n" ++ String.join (block.instrs.map Instr.text)

def written (block : Block) : WrittenBlock := ⟨block.label, some block.weight, block.instrs.map Instr.written⟩

structure Valid (block : Block) : Prop where
  label : IsIdentifier block.label
  weight : IsNumber block.weight
  instrs : ∀ instr ∈ block.instrs, instr.Valid

theorem valid_iff (block : Block) : block.Valid ↔
    IsIdentifier block.label ∧ IsNumber block.weight ∧ ∀ instr ∈ block.instrs, instr.Valid :=
  ⟨fun valid => ⟨valid.label, valid.weight, valid.instrs⟩, fun ⟨label, weight, instrs⟩ => ⟨label, weight, instrs⟩⟩

instance (block : Block) : Decidable block.Valid := decidable_of_iff _ block.valid_iff.symm

end Block

namespace Param

def text (param : Param) : String := "%" ++ param.name ++ ": " ++ param.type.text

def written (param : Param) : WrittenParam := ⟨param.name, param.type.written⟩

structure Valid (param : Param) : Prop where
  name : IsName param.name
  type : param.type.Fits

theorem valid_iff (param : Param) : param.Valid ↔ IsName param.name ∧ param.type.Fits :=
  ⟨fun valid => ⟨valid.name, valid.type⟩, fun ⟨name, type⟩ => ⟨name, type⟩⟩

instance (param : Param) : Decidable param.Valid := decidable_of_iff _ param.valid_iff.symm

end Param

namespace Function

def text (function : Function) : String :=
  "func @" ++ function.name ++ "(" ++ listed (function.params.map Param.text) ++ ") \x7b\n" ++
    String.join (function.blocks.map Block.text) ++ "\x7d\n"

def written (function : Function) : WrittenFunction where
  name := function.name
  params := function.params.map Param.written
  blocks := function.blocks.map Block.written

-- The names of all parameters and results.
def names (function : Function) : List String :=
  function.params.map Param.name ++ function.blocks.flatMap fun block => block.instrs.filterMap Instr.result

def labels (function : Function) : List String := function.blocks.map Block.label

structure Valid (function : Function) : Prop where
  name : IsName function.name
  params : ∀ param ∈ function.params, param.Valid
  blocks : ∀ block ∈ function.blocks, block.Valid
  nonempty : function.blocks ≠ []
  namesApart : function.names.Nodup
  labelsApart : function.labels.Nodup
  valuesKnown : ∀ block ∈ function.blocks, ∀ instr ∈ block.instrs, ∀ operand ∈ instr.operands,
    ∀ name ∈ operand.value?.bind WrittenValue.name?, name ∈ function.names
  labelsKnown : ∀ block ∈ function.blocks, ∀ instr ∈ block.instrs, ∀ operand ∈ instr.operands,
    ∀ label ∈ operand.label?, label ∈ function.labels

end Function

-- The functions of a module, one below the other.
def text (functions : List Function) : String := String.join (functions.map Function.text)

end Source

end LoopDeps
