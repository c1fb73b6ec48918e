import LoopDeps.Proofs.Flow.Depending
set_option autoImplicit false

/- A branch with its targets in the opposite order. Linking finds the same predecessors, and the successors of
   nothing but the blocks that end in the branch are turned round. So a block post-dominates the same blocks as
   before, and what depended on one arm of the branch depends on the other one. -/
namespace LoopDeps

def Instr.opposed (instr : Instr) : Instr := { instr with targets := instr.targets.reverse }

def Value.opposed : Value → Value
  | .instr branch => .instr branch.opposed
  | value => value

namespace Func

-- The function with the targets of one instruction in the opposite order.
def opposed (f : Func) (branch : ValueId) : Func := { f with values := f.values.modify branch Value.opposed }

section

variable (f : Func) (branch : ValueId)

theorem value_opposed (id : ValueId) :
    (f.opposed branch).value? id = (f.value? id).map fun value => if branch = id then value.opposed else value :=
  List.getElem?_modify Value.opposed branch f.values id

theorem instr_opposed (id : ValueId) :
    (f.opposed branch).instr? id = (f.instr? id).map fun instr => if branch = id then instr.opposed else instr := by
  rw [instr?, instr?, value_opposed]
  by_cases here : branch = id
  · simp only [if_pos here]
    cases f.value? id with
    | none => rfl
    | some value => cases value <;> rfl
  · simp only [if_neg here, Option.map_id']

theorem value_name_opposed (id : ValueId) : (f.opposed branch).valueName id = f.valueName id := by
  rw [valueName, valueName, value_opposed]
  by_cases here : branch = id
  · simp only [if_pos here]
    cases f.value? id with
    | none => rfl
    | some value => cases value <;> rfl
  · simp only [if_neg here, Option.map_id']

theorem targets_opposed (block : Block) :
    (f.opposed branch).targetsOf block =
      if block.instrs.getLast? = some branch then (f.targetsOf block).reverse else f.targetsOf block := by
  unfold targetsOf
  cases last : block.instrs.getLast? with
  | none => rfl
  | some id =>
      simp only [Option.bind_some, instr_opposed, Option.some.injEq, eq_comm (a := id)]
      by_cases here : branch = id
      · simp only [if_pos here]
        cases f.instr? id <;> rfl
      · simp only [if_neg here, Option.map_id']

theorem count_targets_opposed (block : Block) (target : BlockId) :
    ((f.opposed branch).targetsOf block).count target = (f.targetsOf block).count target := by
  rw [targets_opposed]
  split
  · exact List.count_reverse
  · rfl

-- Predecessors are told by how often a block names them, in the order of the blocks.
theorem sources_opposed (blocks : List Block) (target : BlockId) :
    sources (blocks.map (f.opposed branch).targetsOf) target = sources (blocks.map f.targetsOf) target := by
  simp only [sources, List.zipIdx_map, List.flatMap_map]
  refine List.flatMap_congr fun entry _ => ?_
  exact congrArg (List.replicate · entry.2) (count_targets_opposed f branch entry.1 target)

end

-- The instruction a block ends in.
def end? (f : Func) (block : BlockId) : Option ValueId := (f.block? block).bind fun block => block.instrs.getLast?

end Func

-- The block with its successors in the opposite order, when it ends in the branch.
def Block.opposed (block : Block) (branch : ValueId) : Block :=
  if block.instrs.getLast? = some branch then { block with succ := block.succ.reverse } else block

theorem Block.opposed_frame (block : Block) (branch : ValueId) :
    (block.opposed branch).label = block.label ∧ (block.opposed branch).weight = block.weight ∧
      (block.opposed branch).instrs = block.instrs ∧ (block.opposed branch).prev = block.prev ∧
      (block.opposed branch).succ.length = block.succ.length := by
  unfold opposed
  split
  · exact ⟨rfl, rfl, rfl, rfl, List.length_reverse⟩
  · exact ⟨rfl, rfl, rfl, rfl, rfl⟩

namespace Func

section

variable (f : Func) (branch : ValueId)

theorem link_instr_opposed (id : ValueId) : (f.opposed branch).link.instr? id =
    (f.link.instr? id).map fun instr => if branch = id then instr.opposed else instr := by
  rw [link_instr, link_instr]
  exact f.instr_opposed branch id

-- An instruction of the linked function is the same or has its targets turned round.
theorem instr_link_opposed (id : ValueId) :
    (f.opposed branch).link.instr? id = f.link.instr? id ∨
      ∃ instr, f.link.instr? id = some instr ∧ (f.opposed branch).link.instr? id = some instr.opposed := by
  rw [link_instr_opposed]
  by_cases here : branch = id
  · simp only [if_pos here]
    cases f.link.instr? id with
    | none => exact Or.inl rfl
    | some instr => exact Or.inr ⟨instr, rfl, rfl⟩
  · simp only [if_neg here, Option.map_id', true_or]

theorem block_opposed (id : BlockId) :
    (f.opposed branch).link.block? id = (f.link.block? id).map fun block => block.opposed branch := by
  have sameSources : sources (f.blocks.map (f.opposed branch).targetsOf) id = sources (f.blocks.map f.targetsOf) id :=
    sources_opposed f branch f.blocks id
  have sameBlocks : (f.opposed branch).blocks = f.blocks := rfl
  have sameBlock : (f.opposed branch).block? id = f.block? id := rfl
  rw [link_block, link_block, sameBlock]
  cases f.block? id with
  | none => rfl
  | some block =>
      simp only [Option.map_some, wired, sameBlocks, sameSources, targets_opposed, Block.opposed]
      split <;> rfl

theorem link_opposed : (f.opposed branch).link.blocks = f.link.blocks.map fun block => block.opposed branch :=
  List.ext_getElem? fun id => (block_opposed f branch id).trans List.getElem?_map.symm

theorem succ_opposed (id : BlockId) :
    (f.opposed branch).link.succ id =
      if f.link.end? id = some branch then (f.link.succ id).reverse else f.link.succ id := by
  rw [succ, succ, block_opposed, end?]
  cases f.link.block? id with
  | none => rfl
  | some block =>
      simp only [Option.map_some, Option.elim_some, Option.bind_some, Block.opposed]
      split <;> rfl

theorem prev_opposed : (f.opposed branch).link.prev = f.link.prev := by
  funext id
  rw [prev, prev, block_opposed]
  cases f.link.block? id with
  | none => rfl
  | some block => exact (block.opposed_frame branch).2.2.2.1

theorem block_count_opposed : (f.opposed branch).link.blocks.length = f.link.blocks.length := by
  rw [link_opposed, List.length_map]

theorem exits_opposed : (f.opposed branch).link.exits = f.link.exits := by
  simp only [exits, blockIds, block_count_opposed]
  refine List.filter_congr fun id _ => ?_
  rw [succ_opposed]
  split
  · rw [List.isEmpty_reverse]
  · rfl

end

end Func

namespace Flow

-- Post-dominance is found by walking from the exits to predecessors.
theorem post_dominance_opposed (f : Func) (branch : ValueId) :
    postDominance (f.opposed branch).link = postDominance f.link := by
  simp only [postDominance, Dominance.ofFunc, reachableWithout, reachable, Direction.next, Direction.roots,
    Func.blockIds, Func.prev_opposed, Func.exits_opposed, Func.block_count_opposed]

end Flow

namespace ControlLinks

open LoopDeps.Flow

-- The arms of a branch trade places, since nothing outside of it is certain over both.
theorem depends_on_reverse (f : Func) (linked : f.Linked) (branch m : BlockId) (twoWay : (f.succ branch).length = 2)
    (inside : m < f.blocks.length) :
    dependsOn (postDominance f).dominates (f.succ branch).reverse branch m =
      (dependsOn (postDominance f).dominates (f.succ branch) branch m).map Bool.not := by
  by_cases other : m = branch
  · simp only [dependsOn, if_pos other, Option.map_none]
  obtain ⟨first, second, two⟩ := List.length_eq_two.mp twoWay
  have branchInside : branch < f.blocks.length := f.succ_source_inside branch first (by simp [two])
  have onFirst : first < f.blocks.length := f.succ_inside linked branch first (by simp [two])
  have onSecond : second < f.blocks.length := f.succ_inside linked branch second (by simp [two])
  have notBoth := not_over_both f branch m first second two
  rw [← post_dominance_iff f linked m first inside onFirst, ← post_dominance_iff f linked m second inside onSecond,
    ← post_dominance_iff f linked m branch inside branchInside] at notBoth
  rw [two]
  show dependsOn _ [second, first] branch m = _
  rw [depends_on_two _ first second branch m other, depends_on_two _ second first branch m other]
  by_cases certain : (postDominance f).dominates m branch = true
  · simp [certain]
  · by_cases right : (postDominance f).dominates m second = true
    · have left : ¬(postDominance f).dominates m first = true := fun both => notBoth certain ⟨both, right⟩
      simp [certain, left, right]
    · by_cases left : (postDominance f).dominates m first = true <;> simp [certain, left, right]

-- What depends on one arm of the branch depends on the other one when its targets are turned round.
theorem depends_on_opposed (f : Func) (closed : f.Closed) (last : ValueId) (branch m : BlockId)
    (twoWay : (f.link.succ branch).length = 2) (inside : m < f.link.blocks.length) :
    dependsOn (postDominance (f.opposed last).link).dominates ((f.opposed last).link.succ branch) branch m =
      (dependsOn (postDominance f.link).dominates (f.link.succ branch) branch m).map
        (if f.link.end? branch = some last then Bool.not else id) := by
  rw [post_dominance_opposed, Func.succ_opposed]
  split
  · exact depends_on_reverse f.link (f.linked_link closed) branch m twoWay inside
  · rw [Option.map_id_fun, id]

end ControlLinks

end LoopDeps
