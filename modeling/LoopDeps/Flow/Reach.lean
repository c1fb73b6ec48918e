import LoopDeps.IR.Func
set_option autoImplicit false

/- Blocks that can be reached along a relation between blocks. -/
namespace LoopDeps.Flow

-- Each step takes the first block that is not seen yet, so as many steps as there are blocks
-- are enough.
def explore (next : BlockId → List BlockId) : Nat → List BlockId → List BlockId → List BlockId
  | 0, _, seen => seen
  | steps + 1, work, seen =>
      match work.dropWhile (fun b => seen.contains b) with
      | [] => seen
      | b :: rest => explore next steps (next b ++ rest) (b :: seen)

def reachable (f : Func) (next : BlockId → List BlockId) (roots : List BlockId) : List BlockId :=
  explore next f.blocks.length roots []

def reachableFromEntry (f : Func) : List BlockId := reachable f f.succ f.entry?.toList

end LoopDeps.Flow
