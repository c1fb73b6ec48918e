import LoopDeps.Flow.Dominance
set_option autoImplicit false

/- Natural loops and their nesting. A branch to a block that dominates its source closes a loop
   with that block as header; all such branches to one header make one loop, whose blocks are those
   that reach a source of one of them without passing the header. -/
namespace LoopDeps.Flow

abbrev LoopId := Nat

structure NaturalLoop where
  header : BlockId
  -- In increasing order.
  blocks : List BlockId
deriving DecidableEq, Repr

-- What the search for loops needs of a function: the reachable blocks and their dominance.
structure Shape where
  func : Func
  reached : List BlockId
  dominance : Dominance

namespace Shape

def ofFunc (f : Func) : Shape := ⟨f, reachableFromEntry f, Flow.dominance f⟩

def isReached (s : Shape) (b : BlockId) : Bool := s.reached.contains b

def reachedPrev (s : Shape) (b : BlockId) : List BlockId := (s.func.prev b).filter s.isReached

def latches (s : Shape) (header : BlockId) : List BlockId :=
  (s.reachedPrev header).filter (s.dominance.dominates header)

def bodyOf (s : Shape) (header : BlockId) : List BlockId :=
  let found := explore s.reachedPrev s.func.blocks.length (s.latches header) [header]
  s.func.blockIds.filter fun b => found.contains b

def headers (s : Shape) : List BlockId :=
  s.func.blockIds.filter fun b => s.isReached b && !(s.latches b).isEmpty

end Shape

def naturalLoops (f : Func) : List NaturalLoop :=
  let s := Shape.ofFunc f
  s.headers.map fun header => ⟨header, s.bodyOf header⟩

def encloses (outer inner : NaturalLoop) : Bool :=
  inner.blocks.length < outer.blocks.length && inner.blocks.all fun b => outer.blocks.contains b

-- The first of the smallest.
def smallest? (size : LoopId → Nat) : List LoopId → Option LoopId
  | [] => none
  | id :: rest =>
      match smallest? size rest with
      | none => some id
      | some best => if size best < size id then some best else some id

structure Loop where
  outer : Option LoopId
  header : BlockId
  subloops : List LoopId
  blocks : List BlockId
deriving DecidableEq, Repr

namespace Loop

def text (l : Loop) : String :=
  let outer := match l.outer with
    | some id => toString id
    | none => "None"
  "outer: " ++ outer ++ ", header: B" ++ toString l.header ++
    ", subloops: " ++ toString l.subloops.length ++ ", blocks: " ++ toString l.blocks.length

end Loop

-- The smallest loop around each loop, among the loops with more blocks.
def outers (loops : List NaturalLoop) : List (Option LoopId) :=
  loops.map fun inner =>
    smallest? (fun id => (loops[id]?.elim 0 fun l => l.blocks.length)) <|
      (List.range loops.length).filter fun id => loops[id]?.any fun outer => encloses outer inner

-- All loops of a function under the ids of their positions.
structure LoopForest where
  loops : List Loop
deriving DecidableEq, Repr

namespace LoopForest

def ofLoops (loops : List NaturalLoop) : LoopForest :=
  let outers := outers loops
  ⟨(loops.zip outers).mapIdx fun id (l, outer) =>
    { outer := outer
      header := l.header
      subloops := (List.range loops.length).filter fun inner => outers[inner]? == some (some id)
      blocks := l.blocks }⟩

def ofFunc (f : Func) : LoopForest := ofLoops (naturalLoops f)

def isEmpty (forest : LoopForest) : Bool := forest.loops.isEmpty

def subloops (forest : LoopForest) (id : LoopId) : List LoopId :=
  forest.loops[id]?.elim [] Loop.subloops

def blocks (forest : LoopForest) (id : LoopId) : List BlockId :=
  forest.loops[id]?.elim [] Loop.blocks

def topLevel (forest : LoopForest) : List LoopId :=
  (List.range forest.loops.length).filter fun id => forest.loops[id]?.any fun l => l.outer.isNone

end LoopForest

end LoopDeps.Flow
