import Mathlib.Data.List.Induction
import LoopDeps.IR.Func
set_option autoImplicit false

/- What linking leaves behind. The pass over the blocks comes to what each block says by itself: its successors are
   the targets of its last instruction, and its predecessors the blocks that name it there. So each predecessor
   list names exactly the blocks that have the block as a successor, and no list leaves the function. -/
namespace LoopDeps.Func

-- The blocks that branch to `id`, each once for every time it names `id` as a target.
def sources (wires : List (List BlockId)) (id : BlockId) : List BlockId :=
  wires.zipIdx.flatMap fun (targets, source) => List.replicate (targets.count id) source

theorem sources_concat (wires : List (List BlockId)) (targets : List BlockId) (id : BlockId) :
    sources (wires ++ [targets]) id = sources wires id ++ List.replicate (targets.count id) wires.length := by
  simp [sources, List.zipIdx_append]

theorem note_prevs (source : BlockId) (targets : List BlockId) (blocks : List Block) :
    targets.foldl (notePrev source) blocks = blocks.mapIdx fun id block =>
      { block with prev := block.prev ++ List.replicate (targets.count id) source } := by
  induction targets generalizing blocks with
  | nil =>
      apply List.ext_getElem?
      intro id
      rw [List.foldl_nil, List.getElem?_mapIdx]
      cases blocks[id]? <;> simp
  | cons target rest ih =>
      rw [List.foldl_cons, ih]
      apply List.ext_getElem?
      intro id
      rw [List.getElem?_mapIdx, List.getElem?_mapIdx, notePrev, List.getElem?_modify]
      cases blocks[id]? with
      | none => rfl
      | some block =>
          by_cases here : target = id
          · simp [here, List.replicate_succ]
          · simp [here]

-- What is there when the first `n` blocks have been gone through.
def linkedUpTo (f : Func) (n : Nat) : Func :=
  { f with blocks := f.blocks.mapIdx fun id block => { block with
      succ := if id < n then f.targetsOf block else []
      prev := sources ((f.blocks.map f.targetsOf).take n) id } }

theorem cleared_eq (f : Func) : f.cleared = f.linkedUpTo 0 := by
  have blocks : f.cleared.blocks = (f.linkedUpTo 0).blocks := by
    apply List.ext_getElem?
    intro id
    simp only [cleared, linkedUpTo, List.getElem?_map, List.getElem?_mapIdx]
    cases f.blocks[id]? <;> rfl
  exact congrArg (fun blocks => { f with blocks := blocks }) blocks

theorem sources_take (wires : List (List BlockId)) (n : Nat) (targets : List BlockId) (here : wires[n]? = some targets)
    (id : BlockId) : sources (wires.take (n + 1)) id = sources (wires.take n) id ++ List.replicate (targets.count id) n := by
  have size : (wires.take n).length = n := by
    rw [List.length_take]
    exact Nat.min_eq_left (Nat.le_of_lt (List.getElem?_eq_some_iff.mp here).1)
  rw [List.take_add_one, here, Option.toList_some, sources_concat, size]

-- Targets are read from the instructions, which no step changes.
theorem link_from_up_to (f : Func) (n : Nat) (block : Block) (here : f.block? n = some block) :
    (f.linkedUpTo n).linkFrom n = f.linkedUpTo (n + 1) := by
  have found : (f.linkedUpTo n).block? n = some { block with
      succ := if n < n then f.targetsOf block else []
      prev := sources ((f.blocks.map f.targetsOf).take n) n } := by
    have here : f.blocks[n]? = some block := here
    rw [block?, linkedUpTo, List.getElem?_mapIdx, here, Option.map_some]
  have step : (f.linkedUpTo n).linkFrom n = { f with
      blocks := ((f.targetsOf block).foldl (notePrev n) (f.linkedUpTo n).blocks).modify n fun old =>
        { old with succ := f.targetsOf block } } := by
    rw [linkFrom, found]
    rfl
  have targets : (f.blocks.map f.targetsOf)[n]? = some (f.targetsOf block) := by
    have here : f.blocks[n]? = some block := here
    rw [List.getElem?_map, here, Option.map_some]
  rw [step, note_prevs]
  refine congrArg (fun blocks => { f with blocks := blocks }) (List.ext_getElem? fun id => ?_)
  simp only [linkedUpTo, List.getElem?_modify, List.getElem?_mapIdx, sources_take _ n _ targets]
  cases other : f.blocks[id]? with
  | none => rfl
  | some old =>
      rcases Nat.lt_trichotomy id n with before | rfl | after
      · simp [Nat.ne_of_gt before, before, Nat.lt_succ_of_lt before]
      · cases Option.some.inj (here.symm.trans other)
        simp
      · simp [Nat.ne_of_lt after, Nat.not_lt_of_lt after, Nat.not_lt_of_le (Nat.succ_le_of_lt after)]

theorem link_up_to (f : Func) (n : Nat) (inside : n ≤ f.blocks.length) :
    (List.range n).foldl linkFrom f.cleared = f.linkedUpTo n := by
  induction n with
  | zero => exact f.cleared_eq
  | succ n ih =>
      rw [List.range_succ, List.foldl_append, ih (Nat.le_of_succ_le inside)]
      exact link_from_up_to f n f.blocks[n] (List.getElem?_eq_getElem inside)

-- What linking says of the block at `id`, whatever stood in its lists before.
def wired (f : Func) (id : BlockId) (block : Block) : Block :=
  { block with succ := f.targetsOf block, prev := sources (f.blocks.map f.targetsOf) id }

theorem link_eq (f : Func) : f.link = { f with blocks := f.blocks.mapIdx f.wired } := by
  have all : f.link = f.linkedUpTo f.blocks.length := link_up_to f f.blocks.length (Nat.le_refl _)
  have blocks : (f.linkedUpTo f.blocks.length).blocks = f.blocks.mapIdx f.wired := by
    rw [linkedUpTo, ← List.length_map f.targetsOf, List.take_length]
    refine List.mapIdx_eq_mapIdx_iff.mpr fun id inside => ?_
    rw [List.length_map, if_pos inside]
    rfl
  rw [all, ← blocks]
  rfl

theorem link_values (f : Func) : f.link.values = f.values := by rw [link_eq]

theorem link_instr (f : Func) : f.link.instr? = f.instr? := by
  rw [link_eq]
  rfl

theorem link_value_name (f : Func) : f.link.valueName = f.valueName := by
  rw [link_eq]
  rfl

theorem link_block (f : Func) (id : BlockId) : f.link.block? id = (f.block? id).map (f.wired id) := by
  rw [link_eq]
  exact List.getElem?_mapIdx

theorem link_length (f : Func) : f.link.blocks.length = f.blocks.length := by
  rw [link_eq]
  exact List.length_mapIdx

-- Linking reads the instructions only, and these it keeps.
theorem targets_link (f : Func) (block old : Block) (same : block.instrs = old.instrs) :
    f.link.targetsOf block = f.targetsOf old := by
  simp only [targetsOf, same, link_instr]

-- A linked block has its instructions from before, and the targets of the last one as successors.
theorem linked_block (f : Func) (block : Block) (member : block ∈ f.link.blocks) :
    ∃ old ∈ f.blocks, block.instrs = old.instrs ∧ block.succ = f.targetsOf old := by
  rw [link_eq] at member
  obtain ⟨position, bound, rfl⟩ := List.mem_mapIdx.mp member
  exact ⟨f.blocks[position], List.getElem_mem bound, rfl, rfl⟩

-- Branches stay inside the function.
def Closed (f : Func) : Prop :=
  ∀ block ∈ f.blocks, ∀ target ∈ f.targetsOf block, target < f.blocks.length

instance (f : Func) : Decidable f.Closed := List.decidableBAll _ _

def wires (f : Func) : List (List BlockId × List BlockId) :=
  f.blocks.map fun block => (block.succ, block.prev)

-- The lists are those that some linking derived, whatever became of the instructions later.
def Linked (f : Func) : Prop := ∃ g : Func, g.Closed ∧ f.wires = g.link.wires

theorem linked_link (f : Func) (closed : f.Closed) : f.link.Linked := ⟨f, closed, rfl⟩

theorem wires_length (f : Func) : f.wires.length = f.blocks.length := List.length_map _

theorem succ_wires (f : Func) (a : BlockId) : f.succ a = f.wires[a]?.elim [] Prod.fst := by
  simp only [succ, block?, wires, List.getElem?_map]
  cases f.blocks[a]? <;> rfl

theorem prev_wires (f : Func) (a : BlockId) : f.prev a = f.wires[a]?.elim [] Prod.snd := by
  simp only [prev, block?, wires, List.getElem?_map]
  cases f.blocks[a]? <;> rfl

theorem count_sources (wires : List (List BlockId)) (a b : BlockId) :
    (sources wires b).count a = (wires[a]?.getD []).count b := by
  induction wires using List.reverseRecOn with
  | nil => rfl
  | append_singleton wires targets ih =>
      have last : (List.replicate (targets.count b) wires.length).count a =
          if a = wires.length then targets.count b else 0 := by
        by_cases here : a = wires.length
        · simp [here]
        · simp [here, List.count_replicate, Ne.symm here]
      rw [sources_concat, List.count_append, ih, last]
      rcases Nat.lt_trichotomy a wires.length with before | rfl | after
      · rw [List.getElem?_append_left before, if_neg (Nat.ne_of_lt before), Nat.add_zero]
      · simp
      · have outside : (wires ++ [targets]).length ≤ a := by rw [List.length_append]; exact after
        rw [List.getElem?_eq_none outside, List.getElem?_eq_none (Nat.le_of_lt after),
          if_neg (Nat.ne_of_gt after)]
        rfl

theorem succ_link (f : Func) (a : BlockId) : f.link.succ a = (f.blocks.map f.targetsOf)[a]?.getD [] := by
  rw [succ, link_block, List.getElem?_map]
  cases found : f.blocks[a]? <;> simp [block?, found, wired]

theorem succ_link_inside (f : Func) (closed : f.Closed) (a b : BlockId) (edge : b ∈ f.link.succ a) :
    b < f.blocks.length := by
  rw [succ_link, List.getElem?_map] at edge
  cases found : f.blocks[a]? with
  | none => simp [found] at edge
  | some block =>
      rw [found] at edge
      exact closed block (List.mem_of_getElem? found) b edge

theorem count_prev_link (f : Func) (closed : f.Closed) (a b : BlockId) :
    (f.link.prev b).count a = (f.link.succ a).count b := by
  by_cases inside : b < f.blocks.length
  · have read : f.link.prev b = sources (f.blocks.map f.targetsOf) b := by
      rw [prev, link_block, block?, List.getElem?_eq_getElem inside, Option.map_some, Option.elim_some, wired]
    rw [read, count_sources, succ_link]
  · have outside : f.link.prev b = [] := by
      rw [prev, link_block, block?, List.getElem?_eq_none (Nat.le_of_not_lt inside), Option.map_none, Option.elim_none]
    have unreached : b ∉ f.link.succ a := fun edge => inside (succ_link_inside f closed a b edge)
    rw [outside, List.count_nil, List.count_eq_zero_of_not_mem unreached]

theorem mem_prev_link (f : Func) (closed : f.Closed) (a b : BlockId) :
    a ∈ f.link.prev b ↔ b ∈ f.link.succ a := by
  rw [← List.count_pos_iff, count_prev_link f closed, List.count_pos_iff]

theorem prev_iff_succ (f : Func) (linked : f.Linked) (a b : BlockId) : a ∈ f.prev b ↔ b ∈ f.succ a := by
  obtain ⟨g, closed, same⟩ := linked
  rw [prev_wires, succ_wires, same, ← prev_wires, ← succ_wires]
  exact mem_prev_link g closed a b

theorem succ_source_inside (f : Func) (a b : BlockId) (edge : b ∈ f.succ a) : a < f.blocks.length := by
  by_cases inside : a < f.blocks.length
  · exact inside
  · simp [succ, block?, inside] at edge

theorem succ_inside (f : Func) (linked : f.Linked) (a b : BlockId) (edge : b ∈ f.succ a) :
    b < f.blocks.length := by
  obtain ⟨g, closed, same⟩ := linked
  have size : f.blocks.length = g.blocks.length := by
    rw [← wires_length, same, wires_length, link_length]
  rw [succ_wires, same, ← succ_wires] at edge
  rw [size]
  exact succ_link_inside g closed a b edge

theorem prev_inside (f : Func) (linked : f.Linked) (a b : BlockId) (edge : a ∈ f.prev b) :
    a < f.blocks.length :=
  succ_source_inside f a b ((prev_iff_succ f linked a b).mp edge)

theorem entry_eq_some (f : Func) (entry : BlockId) : f.entry? = some entry ↔ entry = 0 ∧ 0 < f.blocks.length := by
  unfold entry?
  cases f.blocks with
  | nil => simp
  | cons block rest => simp [eq_comm]

theorem mem_block_ids (f : Func) (b : BlockId) : b ∈ f.blockIds ↔ b < f.blocks.length := List.mem_range

theorem mem_exits (f : Func) (b : BlockId) : b ∈ f.exits ↔ b < f.blocks.length ∧ f.succ b = [] := by
  rw [exits, List.mem_filter, mem_block_ids, List.isEmpty_iff]

-- One block for each list of targets, and in it a branch to them.
def branches (targets : List (List BlockId)) : Func :=
  let blocks := targets.foldl (fun f _ => (f.addBlock "b" defaultWeight).1) (new "f")
  targets.zipIdx.foldl (fun f (targets, block) => (f.push ⟨none, "br", .void, [], targets, block⟩).1) blocks

-- A loop inside a loop. Nothing leads to the last block, which branches into the inner one.
def twoLoops : Func := (branches [[1], [2], [3], [2, 4], [1, 5], [], [3]]).link

theorem two_loops_linked : twoLoops.Linked := linked_link _ (by decide)

end LoopDeps.Func
