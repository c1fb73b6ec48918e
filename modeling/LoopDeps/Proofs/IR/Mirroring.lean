import LoopDeps.Proofs.IR.Built
set_option autoImplicit false

/- Successors and predecessors of a function under construction. Only linking changes them, and then all of them, so
   that they mirror each other after any later edit as well, even where the instructions say something else by then. -/
namespace LoopDeps.Func

-- The two lists of every block against each other. A block that does not exist has none.
structure Mirroring (f : Func) : Prop where
  transposed : ∀ a b, (f.prev b).count a = (f.succ a).count b
  ordered : ∀ b, (f.prev b).Pairwise (· ≤ ·)

theorem mirroring_of_same (f g : Func) (succ : ∀ a, g.succ a = f.succ a) (prev : ∀ a, g.prev a = f.prev a)
    (mirroring : f.Mirroring) : g.Mirroring := by
  refine ⟨fun a b => ?_, fun b => ?_⟩
  · rw [prev, succ]
    exact mirroring.transposed a b
  · rw [prev]
    exact mirroring.ordered b

theorem mirroring_of_wires (f g : Func) (same : g.wires = f.wires) (mirroring : f.Mirroring) : g.Mirroring :=
  mirroring_of_same f g (fun a => by rw [succ_wires, same, ← succ_wires])
    (fun a => by rw [prev_wires, same, ← prev_wires]) mirroring

theorem wires_define (f : Func) (id : ValueId) (instr : Instr) : (f.define id instr).wires = f.wires := by
  apply List.ext_getElem?
  intro position
  simp only [wires, define, List.getElem?_map, List.getElem?_modify]
  cases f.blocks[position]? with
  | none => rfl
  | some block => split <;> rfl

theorem wires_constant (f : Func) (text : String) : (f.constant text).1.wires = f.wires := by
  unfold constant
  split <;> rfl

theorem wires_global (f : Func) (name : String) : (f.global name).1.wires = f.wires := by
  unfold global
  split <;> rfl

-- A new block has empty lists, which is what is read of a block that does not exist.
theorem list_of_more (pick : List BlockId × List BlockId → List BlockId) (nothing : pick ([], []) = [])
    (wires : List (List BlockId × List BlockId)) (a : BlockId) :
    (wires ++ [([], [])])[a]?.elim [] pick = wires[a]?.elim [] pick := by
  rcases Nat.lt_trichotomy a wires.length with before | rfl | after
  · rw [List.getElem?_append_left before]
  · simp [nothing]
  · have outside : (wires ++ [([], [])]).length ≤ a := by rw [List.length_append]; exact after
    rw [List.getElem?_eq_none outside, List.getElem?_eq_none (Nat.le_of_lt after)]

theorem mirroring_add_block (f : Func) (label : String) (weight : Float) (mirroring : f.Mirroring) :
    (f.addBlock label weight).1.Mirroring := by
  have more : (f.addBlock label weight).1.wires = f.wires ++ [([], [])] := List.map_append
  apply mirroring_of_same f _ _ _ mirroring
  · intro a
    rw [succ_wires, more, list_of_more Prod.fst rfl, ← succ_wires]
  · intro a
    rw [prev_wires, more, list_of_more Prod.snd rfl, ← prev_wires]

theorem source_inside (wires : List (List BlockId)) (a b : BlockId) (member : a ∈ sources wires b) : a < wires.length := by
  have counted := List.count_pos_iff.mpr member
  rw [count_sources] at counted
  refine Nat.lt_of_not_le fun outside => ?_
  rw [List.getElem?_eq_none outside] at counted
  exact Nat.lt_irrefl 0 counted

-- Sources are gathered block by block.
theorem sources_ordered (wires : List (List BlockId)) (b : BlockId) : (sources wires b).Pairwise (· ≤ ·) := by
  induction wires using List.reverseRecOn with
  | nil => exact List.Pairwise.nil
  | append_singleton wires targets ih =>
      rw [sources_concat, List.pairwise_append]
      refine ⟨ih, List.pairwise_replicate.mpr (Or.inr (Nat.le_refl _)), ?_⟩
      intro a early last late
      rw [(List.mem_replicate.mp late).2]
      exact Nat.le_of_lt (source_inside wires a b early)

theorem mirroring_link (f : Func) (closed : f.Closed) : f.link.Mirroring := by
  refine ⟨count_prev_link f closed, fun b => ?_⟩
  rw [prev, link_block]
  cases f.block? b with
  | none => exact List.Pairwise.nil
  | some block => exact sources_ordered _ b

theorem built_mirroring (f : Func) (built : Built f) : f.Mirroring := by
  induction built with
  | new name => exact ⟨fun _ _ => rfl, fun _ => List.Pairwise.nil⟩
  | addBlock f label weight _ ih => exact mirroring_add_block f label weight ih
  | addArgument f name type _ ih => exact mirroring_of_wires f _ rfl ih
  | constant f text _ ih => exact mirroring_of_wires f _ (wires_constant f text) ih
  | global f name _ ih => exact mirroring_of_wires f _ (wires_global f name) ih
  | reserve f _ ih => exact mirroring_of_wires f _ rfl ih
  | define f id instr _ _ _ ih => exact mirroring_of_wires f _ (wires_define f id instr) ih
  | push f instr _ _ ih => exact mirroring_of_wires f _ (wires_define f.reserve.1 f.reserve.2 instr) ih
  | link f _ closed _ => exact mirroring_link f closed

theorem targets_after_link (f : Func) : f.link.blocks.map f.link.targetsOf = f.blocks.map f.targetsOf := by
  apply List.ext_getElem?
  intro id
  have once : f.link.blocks[id]? = (f.blocks[id]?).map (f.wired id) := link_block f id
  rw [List.getElem?_map, List.getElem?_map, once, Option.map_map]
  exact congrArg (Option.map · f.blocks[id]?) (funext fun block => targets_link f _ block rfl)

theorem link_again (f : Func) : f.link.link = f.link := by
  have wired (id : BlockId) (block : Block) : f.link.wired id (f.wired id block) = f.wired id block := by
    rw [Func.wired, targets_after_link, targets_link f (f.wired id block) block rfl]
    rfl
  have blocks : f.link.link.blocks = f.link.blocks := by
    apply List.ext_getElem?
    intro id
    have again : f.link.link.blocks[id]? = (f.link.blocks[id]?).map (f.link.wired id) := link_block f.link id
    have once : f.link.blocks[id]? = (f.blocks[id]?).map (f.wired id) := link_block f id
    rw [again, once, Option.map_map]
    exact congrArg (Option.map · f.blocks[id]?) (funext fun block => wired id block)
  have kept : f.link.link = { f.link with blocks := f.link.link.blocks } := by rw [link_eq f.link]
  rw [kept, blocks]

-- A block leads where its last instruction does, and a block without instructions leads nowhere.
def Ends (f : Func) (block : Block) : Prop :=
  (block.instrs = [] → block.succ = []) ∧
    ∀ id, block.instrs.getLast? = some id → ∃ instr, f.instr? id = some instr ∧ block.succ = instr.targets

theorem linked_ends (f : Func) (sound : Sound f.link) (block : Block) (member : block ∈ f.link.blocks) :
    f.link.Ends block := by
  have succ : block.succ = f.link.targetsOf block := by
    obtain ⟨old, _, same, succ⟩ := linked_block f block member
    rw [succ, targets_link f block old same]
  rw [Ends, succ, targetsOf]
  refine ⟨fun nothing => by rw [nothing]; rfl, fun id last => ?_⟩
  obtain ⟨instr, defined⟩ := sound.listed block member id (List.mem_of_getLast? last)
  exact ⟨instr, defined, by rw [last, Option.bind_some, defined]⟩

theorem links_mirror (f : Func) (built : Built f) :
    f.Mirroring ∧ (f.Closed → (∀ block ∈ f.link.blocks, f.link.Ends block) ∧ f.link.link = f.link) := by
  refine ⟨built_mirroring f built, fun closed => ⟨fun block member => ?_, link_again f⟩⟩
  exact linked_ends f (built_sound f.link (.link f built closed)) block member

-- Linked when the loop branched to itself and to the entry, and given another end after that.
def reended : Func :=
  let entry := ((new "f").addBlock "entry" defaultWeight).1
  let loop := (entry.addBlock "loop" defaultWeight).1
  let branches := ((loop.push ⟨none, "br", .void, [], [1, 1], 0⟩).1.push ⟨none, "br", .void, [], [1, 0], 1⟩).1
  (branches.link.push ⟨none, "ret", .void, [], [], 1⟩).1

theorem reended_built : Built reended :=
  .push _ _ (.link _ (.push _ _ (.push _ _ (.addBlock _ _ _ (.addBlock _ _ _ (.new _))) (by decide)) (by decide))
    (by decide)) (by decide)

theorem reended_mirrors : reended.prev 1 = [0, 0, 1] ∧ reended.succ 1 = [1, 0] ∧ reended.link.succ 1 = [] ∧
    reended.Closed ∧ reended.Mirroring ∧ reended.link.link = reended.link := by
  obtain ⟨mirroring, linked⟩ := links_mirror reended reended_built
  have closed : reended.Closed := by decide
  exact ⟨by decide, by decide, by decide, closed, mirroring, (linked closed).2⟩

end LoopDeps.Func
