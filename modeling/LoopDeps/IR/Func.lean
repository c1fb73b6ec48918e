import LoopDeps.IR.Instr
set_option autoImplicit false

/- A function: values and blocks under the ids of their positions, and the operations that build
   it up. Successor and predecessor lists are derived from the terminators by `link`. -/
namespace LoopDeps

inductive Value where
  | argument (name : String) (type : Ty)
  | constant (text : String)
  | global (name : String)
  | instr (instr : Instr)
  -- Reserved for a reference ahead of its definition.
  | pending
deriving DecidableEq, Repr

structure Block where
  id : BlockId
  label : String
  weight : Float
  instrs : List ValueId
  succ : List BlockId
  prev : List BlockId
deriving DecidableEq, Repr

structure Func where
  name : String
  values : List Value
  blocks : List Block
  -- The ids handed out for the spellings of constants and globals met so far.
  constants : List (String × ValueId)
  globals : List (String × ValueId)
deriving DecidableEq, Repr

namespace Func

def new (name : String) : Func := ⟨name, [], [], [], []⟩

def defaultWeight : Float := 1.0

def addBlock (f : Func) (label : String) (weight : Float) : Func × BlockId :=
  ({ f with blocks := f.blocks ++ [⟨f.blocks.length, label, weight, [], [], []⟩] }, f.blocks.length)

def addValue (f : Func) (value : Value) : Func × ValueId :=
  ({ f with values := f.values ++ [value] }, f.values.length)

def addArgument (f : Func) (name : String) (type : Ty) : Func × ValueId :=
  f.addValue (.argument name type)

-- One id per spelling.
def constant (f : Func) (text : String) : Func × ValueId :=
  match f.constants.lookup text with
  | some id => (f, id)
  | none =>
      let (g, id) := f.addValue (.constant text)
      ({ g with constants := (text, id) :: g.constants }, id)

def global (f : Func) (name : String) : Func × ValueId :=
  match f.globals.lookup name with
  | some id => (f, id)
  | none =>
      let (g, id) := f.addValue (.global name)
      ({ g with globals := (name, id) :: g.globals }, id)

def reserve (f : Func) : Func × ValueId := f.addValue .pending

-- Fills a slot and appends the instruction to its block.
def define (f : Func) (id : ValueId) (instr : Instr) : Func :=
  { f with
    values := f.values.set id (.instr instr)
    blocks := f.blocks.modify instr.block fun block =>
      { block with instrs := block.instrs ++ [id] } }

def push (f : Func) (instr : Instr) : Func × ValueId :=
  let (g, id) := f.reserve
  (g.define id instr, id)

def value? (f : Func) (id : ValueId) : Option Value := f.values[id]?

def instr? (f : Func) (id : ValueId) : Option Instr :=
  match f.value? id with
  | some (.instr instr) => some instr
  | _ => none

def block? (f : Func) (id : BlockId) : Option Block := f.blocks[id]?

def blockIds (f : Func) : List BlockId := List.range f.blocks.length

def succ (f : Func) (id : BlockId) : List BlockId := (f.block? id).elim [] Block.succ

def prev (f : Func) (id : BlockId) : List BlockId := (f.block? id).elim [] Block.prev

-- The targets of the last instruction listed in a block.
def targetsOf (f : Func) (block : Block) : List BlockId :=
  match block.instrs.getLast?.bind f.instr? with
  | some instr => instr.targets
  | none => []

def cleared (f : Func) : Func :=
  { f with blocks := f.blocks.map fun block => { block with succ := [], prev := [] } }

-- A target gets its source as one more predecessor.
def notePrev (source : BlockId) (blocks : List Block) (target : BlockId) : List Block :=
  blocks.modify target fun block => { block with prev := block.prev ++ [source] }

def linkFrom (f : Func) (id : BlockId) : Func :=
  match f.block? id with
  | none => f
  | some block =>
      let targets := f.targetsOf block
      let noted := targets.foldl (notePrev id) f.blocks
      { f with blocks := noted.modify id fun block => { block with succ := targets } }

def link (f : Func) : Func := f.blockIds.foldl linkFrom f.cleared

def entry? (f : Func) : Option BlockId := if f.blocks.isEmpty then none else some 0

def exits (f : Func) : List BlockId := f.blockIds.filter fun id => (f.succ id).isEmpty

-- The spelling of a value in the text of its function. Values without a name show their id.
def valueName (f : Func) (id : ValueId) : String :=
  match f.value? id with
  | some (.argument name _) => "%" ++ name
  | some (.constant text) => text
  | some (.global name) => "@" ++ name
  | some (.instr instr) =>
      match instr.name with
      | some name => "%" ++ name
      | none => "%v" ++ toString id
  | _ => "%v" ++ toString id

-- Sums of weights run from left to right, starting at negative zero.
def sumOf (weights : List Float) : Float := weights.foldl (· + ·) (-0.0)

def totalWeight (f : Func) : Float :=
  sumOf (f.blocks.map fun block => block.weight * Float.ofNat block.instrs.length)

end Func

end LoopDeps
