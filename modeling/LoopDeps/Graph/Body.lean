import LoopDeps.IR.Func
set_option autoImplicit false

/- The body of one loop: some blocks of a function in a given order, which may name a block
   more than once. -/
namespace LoopDeps

structure BodyInstr where
  id : ValueId
  instr : Instr
  -- The weight of the block the instruction is listed in.
  weight : Float
deriving DecidableEq, Repr

structure Body where
  loopId : Nat
  func : Func
  blocks : List BlockId
deriving DecidableEq, Repr

namespace Body

def blockInstrs (f : Func) (block : Block) : List BodyInstr :=
  block.instrs.filterMap fun id => (f.instr? id).map fun instr => ⟨id, instr, block.weight⟩

-- In the order of the blocks, then of their instructions.
def instrs (body : Body) : List BodyInstr :=
  (body.blocks.filterMap body.func.block?).flatMap (blockInstrs body.func)

def weight (body : Body) : Float := Func.sumOf (body.instrs.map BodyInstr.weight)

-- The share of the function's executed instructions that falls to the loop.
def coverage (body : Body) : Float :=
  let total := body.func.totalWeight
  if total > 0.0 then body.weight / total else 0.0

def blockListing (f : Func) (block : Block) : String :=
  "    " ++ block.label ++ ":\n" ++
    String.join ((blockInstrs f block).map fun i => "        " ++ i.instr.opcode ++ "\n")

def listing (body : Body) : String :=
  "loop " ++ toString body.loopId ++ " in @" ++ body.func.name ++ ":\n" ++
    String.join ((body.blocks.filterMap body.func.block?).map (blockListing body.func))

end Body

end LoopDeps
