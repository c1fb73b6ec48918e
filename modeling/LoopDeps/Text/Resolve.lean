import LoopDeps.IR.Func
import LoopDeps.Decimal.Read
import LoopDeps.Text.ParseError
set_option autoImplicit false

/- From a written function to a function. All parameters, blocks and results are declared first, so
   that operands may refer to what comes later; then the operands are looked up. -/
namespace LoopDeps.Text

namespace WrittenType

def resolve : WrittenType → Except ParseError Ty
  | .void => .ok .void
  | .half => .ok .half
  | .float => .ok .float
  | .double => .ok .double
  | .fp128 => .ok .fp128
  | .ptr => .ok .ptr
  | .int bits =>
      match Decimal.word? bits.toList with
      | some width => .ok (.int width)
      | none => .error (.badType ("i" ++ bits))
  | .vector length element =>
      match Decimal.word? length.toList with
      | some count => element.resolve.map (.vector count)
      | none => .error (.badNumber length)

end WrittenType

-- An instruction whose type is known and whose operands are not.
structure Declared where
  id : ValueId
  block : BlockId
  type : Ty
  written : WrittenInstr
deriving DecidableEq, Repr

-- The function so far, and the names that its operands may use.
structure Scope where
  func : Func
  locals : List (String × ValueId)
  labels : List (String × BlockId)
  declared : List Declared
deriving DecidableEq, Repr

namespace Scope

def new (name : String) : Scope := ⟨Func.new name, [], [], []⟩

def bindLocal (scope : Scope) (name : String) (id : ValueId) : Except ParseError Scope :=
  if (scope.locals.lookup name).isSome then .error (.repeatedName name)
  else .ok { scope with locals := (name, id) :: scope.locals }

def declareParam (scope : Scope) (param : WrittenParam) : Except ParseError Scope := do
  let type ← param.type.resolve
  let (func, id) := scope.func.addArgument param.name type
  { scope with func := func }.bindLocal param.name id

def typeOf (instr : WrittenInstr) : Except ParseError Ty :=
  match instr.type with
  | none => .ok .void
  | some type => type.resolve

def declareInstr (block : BlockId) (scope : Scope) (instr : WrittenInstr × Ty) :
    Except ParseError Scope := do
  let (func, id) := scope.func.reserve
  let scope := { scope with func := func }
  let scope ← match instr.1.result with
    | some name => scope.bindLocal name id
    | none => pure scope
  pure { scope with declared := scope.declared ++ [⟨id, block, instr.2, instr.1⟩] }

def weightOf (block : WrittenBlock) : Float :=
  match block.weight with
  | some text => Decimal.double text.toList
  | none => Func.defaultWeight

-- The types of a block's instructions are checked before its label and its results.
def declareBlock (scope : Scope) (block : WrittenBlock) : Except ParseError Scope := do
  let types ← block.instrs.mapM typeOf
  if (scope.labels.lookup block.label).isSome then throw (.repeatedBlock block.label)
  let (func, id) := scope.func.addBlock block.label (weightOf block)
  let scope := { scope with func := func, labels := (block.label, id) :: scope.labels }
  (block.instrs.zip types).foldlM (declareInstr id) scope

def declare (written : WrittenFunction) : Except ParseError Scope := do
  let scope ← written.params.foldlM declareParam (new written.name)
  written.blocks.foldlM declareBlock scope

end Scope

-- The operands and targets of one instruction, in the order they are written.
structure Operands where
  func : Func
  values : List ValueId
  targets : List BlockId

namespace Operands

def addValue (scope : Scope) (found : Operands) : WrittenValue → Except ParseError Operands
  | .name name =>
      match scope.locals.lookup name with
      | some id => .ok { found with values := found.values ++ [id] }
      | none => .error (.undefinedValue name)
  | .global name =>
      let (func, id) := found.func.global name
      .ok { found with func := func, values := found.values ++ [id] }
  | .constant text =>
      let (func, id) := found.func.constant text
      .ok { found with func := func, values := found.values ++ [id] }

-- The block a phi's value comes from is control flow and no operand.
def add (scope : Scope) (found : Operands) : WrittenOperand → Except ParseError Operands
  | .value value => found.addValue scope value
  | .incoming value _ => found.addValue scope value
  | .label label =>
      match scope.labels.lookup label with
      | some id => .ok { found with targets := found.targets ++ [id] }
      | none => .error (.undefinedBlock label)

end Operands

namespace Scope

def defineInstr (scope : Scope) (func : Func) (declared : Declared) : Except ParseError Func := do
  let found ← declared.written.operands.foldlM (Operands.add scope) ⟨func, [], []⟩
  pure <| found.func.define declared.id
    { name := declared.written.result
      opcode := declared.written.opcode
      type := declared.type
      operands := found.values
      targets := found.targets
      block := declared.block }

end Scope

namespace WrittenFunction

def resolve (written : WrittenFunction) : Except ParseError Func := do
  let scope ← Scope.declare written
  let func ← scope.declared.foldlM scope.defineInstr scope.func
  pure func.link

end WrittenFunction

end LoopDeps.Text
