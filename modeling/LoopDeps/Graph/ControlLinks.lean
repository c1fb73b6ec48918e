import LoopDeps.Graph.Basic
import LoopDeps.Graph.Body
set_option autoImplicit false

/- Control edges from the last instruction of a two-way block to the instructions of the blocks that
   depend on which way it goes. An instruction fed by an earlier dependent of the same branch through
   a data edge needs no control edge of its own. -/
namespace LoopDeps.ControlLinks

abbrev PostDominates := BlockId → BlockId → Bool

-- The arm of the branch that leads to `m`: the last successor that `m` post-dominates decides.
def armOf (pdom : PostDominates) (succ : List BlockId) (m : BlockId) : Option Bool :=
  match succ.zipIdx.findRev? fun (s, _) => pdom m s with
  | none => none
  | some (_, position) => some (position == 0)

-- The arm on which a block depends, when it does not run either way.
def dependsOn (pdom : PostDominates) (succ : List BlockId) (branch m : BlockId) : Option Bool :=
  if m = branch then none
  else match armOf pdom succ m with
    | none => none
    | some arm => if pdom m branch then none else some arm

structure Progress where
  -- The dependents of the branch met so far, with or without an edge of their own.
  dependents : List NodeId
  added : Nat

def linkInstr (terminator : NodeId) (arm : Bool) (progress : Progress) (value : ValueId) :
    Edit Progress := do
  let g ← get
  match g.nodeOf? value with
  | none => Edit.missing (.instruction value)
  | some x =>
      let dependents := progress.dependents ++ [x]
      if progress.dependents.any fun p => g.hasDataEdge p x then pure { progress with dependents }
      else
        let _ ← Edit.addEdge terminator x (.control arm) (g.weightOf x)
        pure ⟨dependents, progress.added + 1⟩

def linkBlock (body : Body) (pdom : PostDominates) (branch : BlockId) (terminator : NodeId)
    (progress : Progress) (m : BlockId) : Edit Progress := do
  match dependsOn pdom (body.func.succ branch) branch m with
  | none => pure progress
  | some arm =>
      ((body.func.block? m).elim [] Block.instrs).foldlM (linkInstr terminator arm) progress

-- The number of edges added for one block of the body.
def linkBranch (body : Body) (pdom : PostDominates) (branch : BlockId) : Edit Nat := do
  match body.func.block? branch with
  | none => pure 0
  | some block =>
      if block.succ.length > 2 then
        throw (.wideBranch body.loopId block.label block.succ.length)
      else if block.succ.length < 2 then pure 0
      else
        match block.instrs.getLast?.bind (← get).nodeOf? with
        | none => Edit.missing (.terminator block.label)
        | some terminator =>
            let progress ← body.blocks.foldlM (linkBlock body pdom branch terminator) ⟨[], 0⟩
            pure progress.added

def linkBranches (body : Body) (pdom : PostDominates) : List BlockId → Edit Nat
  | [] => pure 0
  | branch :: rest => do
      let here ← linkBranch body pdom branch
      let later ← linkBranches body pdom rest
      pure (here + later)

-- Whether an edge was added.
def pass (body : Body) (pdom : PostDominates) : Edit Bool := do
  let added ← linkBranches body pdom body.blocks
  pure (added != 0)

end LoopDeps.ControlLinks
