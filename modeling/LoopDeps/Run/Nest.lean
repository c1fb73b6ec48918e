import LoopDeps.Flow.Loops
set_option autoImplicit false

/- The nesting of the loops of a function, and the order in which loops are left: inner loops before
   the loop around them. Every loop takes a number in that order. -/
namespace LoopDeps

open LoopDeps.Flow

structure LoopNest where
  topLevel : List LoopId
  -- The subloops and the blocks of each loop, under the ids of their positions.
  subloops : List (List LoopId)
  blocks : List (List BlockId)
deriving DecidableEq, Repr

namespace LoopNest

def ofForest (forest : LoopForest) : LoopNest :=
  ⟨forest.topLevel, forest.loops.map Loop.subloops, forest.loops.map Loop.blocks⟩

def subloopsOf (nest : LoopNest) (id : LoopId) : List LoopId := nest.subloops[id]?.getD []

def blocksOf (nest : LoopNest) (id : LoopId) : List BlockId := nest.blocks[id]?.getD []

def isInnermost (nest : LoopNest) (id : LoopId) : Bool := (nest.subloopsOf id).isEmpty

-- A loop and all loops inside it, down to a depth.
def leaving (nest : LoopNest) : Nat → LoopId → List LoopId
  | 0, _ => []
  | depth + 1, id => (nest.subloopsOf id).flatMap (nest.leaving depth) ++ [id]

-- Loops are nested no deeper than there are loops.
def order (nest : LoopNest) : List LoopId :=
  nest.topLevel.flatMap (nest.leaving nest.subloops.length)

def numbered (nest : LoopNest) (first : Nat) : List (LoopId × Nat) := nest.order.zipIdx first

end LoopNest

end LoopDeps
