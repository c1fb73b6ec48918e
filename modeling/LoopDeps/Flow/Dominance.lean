import LoopDeps.Flow.Reach
set_option autoImplicit false

/- Dominance and post-dominance. A block dominates exactly the blocks that cannot be reached from
   the entry once it is taken away; post-dominance is the same against the direction of control,
   from all exits at once. -/
namespace LoopDeps.Flow

inductive Direction where
  | forward
  | backward
deriving DecidableEq, Repr

namespace Direction

def roots (f : Func) : Direction → List BlockId
  | .forward => f.entry?.toList
  | .backward => f.exits

def next (f : Func) : Direction → BlockId → List BlockId
  | .forward => f.succ
  | .backward => f.prev

end Direction

def without (removed : BlockId) (blocks : List BlockId) : List BlockId :=
  blocks.filter fun b => b != removed

def reachableWithout (f : Func) (direction : Direction) (removed : BlockId) : List BlockId :=
  reachable f (fun b => without removed (direction.next f b)) (without removed (direction.roots f))

-- The blocks dominated by each block, in block order.
structure Dominance where
  sets : List (List BlockId)
deriving DecidableEq, Repr

namespace Dominance

def ofFunc (f : Func) (direction : Direction) : Dominance :=
  ⟨f.blockIds.map fun removed =>
    let reached := reachableWithout f direction removed
    f.blockIds.filter fun b => !reached.contains b⟩

def set (d : Dominance) (a : BlockId) : List BlockId := d.sets[a]?.getD []

def dominates (d : Dominance) (a b : BlockId) : Bool := a == b || (d.set a).contains b

end Dominance

def dominance (f : Func) : Dominance := Dominance.ofFunc f .forward

def postDominance (f : Func) : Dominance := Dominance.ofFunc f .backward

end LoopDeps.Flow
