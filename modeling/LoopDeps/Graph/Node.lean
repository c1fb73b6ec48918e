import LoopDeps.IR.Instr
set_option autoImplicit false

/- Nodes and edges of a dependency graph. -/
namespace LoopDeps

abbrev NodeId := Nat
abbrev EdgeId := Nat

inductive NodeKind where
  | instruction
  -- A value used in the loop and produced outside of it.
  | external
deriving DecidableEq, Repr

inductive Category where
  | compute
  | memory
deriving DecidableEq, Repr

inductive NumType where
  | integer
  | float
  | vector
deriving DecidableEq, Repr

inductive Readiness where
  | allOperands
  | anyOperand
deriving DecidableEq, Repr

-- The place of a node in the arithmetic that stands for an address computation.
inductive ChainRole where
  | add1
  | add2
  | multiply
  | size
deriving DecidableEq, Repr

-- A target needs the value of its source, or runs only on one arm of the branch that is its source.
inductive Dependence where
  | data
  | control (arm : Bool)
deriving DecidableEq, Repr

namespace NumType

def letter : NumType → Char
  | .integer => 'N'
  | .float => 'F'
  | .vector => 'V'

end NumType

namespace ChainRole

def text : ChainRole → String
  | .add1 => "addr.add1"
  | .add2 => "addr.add2"
  | .multiply => "addr.mul"
  | .size => "addr.size"

end ChainRole

namespace Dependence

def letter : Dependence → Char
  | .data => 'D'
  | .control true => 'Y'
  | .control false => 'N'

def isControl : Dependence → Bool
  | .data => false
  | .control _ => true

end Dependence

structure Node where
  id : NodeId
  kind : NodeKind
  category : Category
  numType : NumType
  weight : Float
  latency : Nat
  readiness : Readiness
  visited : Bool
  backedgesIn : Nat
  backedgesOut : Nat
  role : Option ChainRole
  -- The value the node stands for. The nodes of a chain keep that of the address they replace.
  value : ValueId
  label : String
  incoming : List EdgeId
  outgoing : List EdgeId
deriving DecidableEq, Repr

namespace Node

def instruction (id : NodeId) (value : ValueId) (label : String) : Node :=
  { id := id, kind := .instruction, category := .compute, numType := .integer, weight := 0.0
    latency := 1, readiness := .allOperands, visited := false, backedgesIn := 0, backedgesOut := 0
    role := none, value := value, label := label, incoming := [], outgoing := [] }

def external (id : NodeId) (value : ValueId) (label : String) (weight : Float) : Node :=
  { instruction id value label with kind := .external, weight := weight }

def chain (id : NodeId) (value : ValueId) (role : ChainRole) (weight : Float) : Node :=
  { instruction id value role.text with role := some role, weight := weight }

def isExternal (n : Node) : Bool := n.kind == .external

def isMemory (n : Node) : Bool := n.kind == .instruction && n.category == .memory

-- An instruction that is no part of a chain.
def isPlain (n : Node) : Bool := n.kind == .instruction && n.role.isNone

def categoryLetter (n : Node) : Char :=
  match n.kind, n.category with
  | .external, _ => 'D'
  | .instruction, .memory => 'M'
  | .instruction, .compute => 'C'

-- Depths are not computed: every node is at depth zero.
def depth (_ : Node) : Nat := 0

def forwardOutCount (n : Node) : Nat := n.outgoing.length - n.backedgesOut

def forwardInCount (n : Node) : Nat := n.incoming.length - n.backedgesIn

end Node

structure Edge where
  id : EdgeId
  kind : Dependence
  weight : Float
  -- The producer of a value, or the branch that decides.
  source : NodeId
  target : NodeId
  backedge : Bool
deriving DecidableEq, Repr

end LoopDeps
