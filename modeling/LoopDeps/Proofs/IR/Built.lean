import LoopDeps.Proofs.IR.Linking
set_option autoImplicit false

/- Functions made by the operations that build them up, with every id in range. Whatever their order, each
   listed id has an instruction, a block that branches lists one, and the id of a block is its place. -/
namespace LoopDeps.Func

inductive Built : Func → Prop where
  | new (name : String) : Built (Func.new name)
  | addBlock (f : Func) (label : String) (weight : Float) (before : Built f) : Built (f.addBlock label weight).1
  | addArgument (f : Func) (name : String) (type : Ty) (before : Built f) : Built (f.addArgument name type).1
  | constant (f : Func) (text : String) (before : Built f) : Built (f.constant text).1
  | global (f : Func) (name : String) (before : Built f) : Built (f.global name).1
  | reserve (f : Func) (before : Built f) : Built f.reserve.1
  | define (f : Func) (id : ValueId) (instr : Instr) (before : Built f) (slot : id < f.values.length)
      (place : instr.block < f.blocks.length) : Built (f.define id instr)
  | push (f : Func) (instr : Instr) (before : Built f) (place : instr.block < f.blocks.length) :
      Built (f.push instr).1
  | link (f : Func) (before : Built f)
      (targets : ∀ block ∈ f.blocks, ∀ target ∈ f.targetsOf block, target < f.blocks.length) : Built f.link

theorem built_pushes (instrs : List Instr) (f : Func) (built : Built f)
    (places : ∀ instr ∈ instrs, instr.block < f.blocks.length) :
    Built (instrs.foldl (fun f instr => (f.push instr).1) f) := by
  induction instrs generalizing f with
  | nil => exact built
  | cons instr rest ih =>
      have size : (f.push instr).1.blocks.length = f.blocks.length := List.length_modify _ _ _
      refine ih _ (.push f instr built (places instr List.mem_cons_self)) fun other later => ?_
      rw [size]
      exact places other (List.mem_cons_of_mem _ later)

structure Sound (f : Func) : Prop where
  listed : ∀ block ∈ f.blocks, ∀ id ∈ block.instrs, ∃ instr, f.instr? id = some instr
  ended : ∀ block ∈ f.blocks, block.succ ≠ [] → block.instrs ≠ []

theorem instr_add_value (f : Func) (value : Value) (id : ValueId) (instr : Instr)
    (defined : f.instr? id = some instr) : (f.addValue value).1.instr? id = some instr := by
  have inside : id < f.values.length := by
    refine Nat.lt_of_not_le fun outside => ?_
    rw [instr?, value?, List.getElem?_eq_none outside] at defined
    cases defined
  have same : (f.addValue value).1.value? id = f.value? id := List.getElem?_append_left inside
  rw [instr?, same]
  exact defined

theorem sound_add_value (f : Func) (value : Value) (sound : Sound f) : Sound (f.addValue value).1 := by
  refine ⟨?_, sound.ended⟩
  intro block member id inBlock
  obtain ⟨instr, defined⟩ := sound.listed block member id inBlock
  exact ⟨instr, instr_add_value f value id instr defined⟩

theorem sound_define (f : Func) (id : ValueId) (instr : Instr) (sound : Sound f) (slot : id < f.values.length) :
    Sound (f.define id instr) := by
  have here : (f.define id instr).instr? id = some instr := by
    have read : (f.define id instr).value? id = some (.instr instr) := List.getElem?_set_self slot
    rw [instr?, read]
  have stays : ∀ other old, f.instr? other = some old → ∃ now, (f.define id instr).instr? other = some now := by
    intro other old defined
    by_cases same : other = id
    · exact ⟨instr, same ▸ here⟩
    · have read : (f.define id instr).value? other = f.value? other :=
        List.getElem?_set_ne (Ne.symm same)
      exact ⟨old, by rw [instr?, read]; exact defined⟩
  have place : ∀ block ∈ (f.define id instr).blocks, ∃ old ∈ f.blocks, block.succ = old.succ ∧
      (block.instrs = old.instrs ∨ block.instrs = old.instrs ++ [id]) := by
    intro block member
    have member : block ∈ f.blocks.modify instr.block fun block =>
        { block with instrs := block.instrs ++ [id] } := member
    obtain ⟨position, bound, rfl⟩ := List.mem_iff_getElem.mp member
    rw [List.length_modify] at bound
    refine ⟨f.blocks[position], List.getElem_mem bound, ?_⟩
    rw [List.getElem_modify]
    split
    · exact ⟨rfl, Or.inr rfl⟩
    · exact ⟨rfl, Or.inl rfl⟩
  refine ⟨?_, ?_⟩
  · intro block member other inBlock
    obtain ⟨old, inside, _, same | more⟩ := place block member
    · obtain ⟨before, defined⟩ := sound.listed old inside other (same ▸ inBlock)
      exact stays other before defined
    · rcases List.mem_append.mp (more ▸ inBlock) with earlier | last
      · obtain ⟨before, defined⟩ := sound.listed old inside other earlier
        exact stays other before defined
      · exact ⟨instr, List.mem_singleton.mp last ▸ here⟩
  · intro block member branches
    obtain ⟨old, inside, succ, same | more⟩ := place block member
    · exact same ▸ sound.ended old inside (succ ▸ branches)
    · rw [more]
      exact List.append_ne_nil_of_right_ne_nil _ (List.cons_ne_nil id [])

theorem sound_link (f : Func) (sound : Sound f) : Sound f.link := by
  refine ⟨?_, ?_⟩
  · intro block member id inBlock
    obtain ⟨old, inside, same, _⟩ := linked_block f block member
    rw [link_instr]
    exact sound.listed old inside id (same ▸ inBlock)
  · intro block member branches nothing
    obtain ⟨old, inside, same, succ⟩ := linked_block f block member
    rw [succ, targetsOf, ← same, nothing] at branches
    exact branches rfl

theorem built_sound (f : Func) (built : Built f) : Sound f := by
  induction built with
  | new name =>
      exact ⟨fun _ member => (List.not_mem_nil member).elim, fun _ member => (List.not_mem_nil member).elim⟩
  | addBlock f label weight _ ih =>
      refine ⟨?_, ?_⟩
      · intro block member id inBlock
        rcases List.mem_append.mp member with before | last
        · exact ih.listed block before id inBlock
        · cases List.mem_singleton.mp last
          cases inBlock
      · intro block member branches
        rcases List.mem_append.mp member with before | last
        · exact ih.ended block before branches
        · cases List.mem_singleton.mp last
          exact absurd rfl branches
  | addArgument f name type _ ih => exact sound_add_value f _ ih
  | constant f text _ ih =>
      unfold constant
      split
      · exact ih
      · exact ⟨(sound_add_value f (.constant text) ih).listed, ih.ended⟩
  | global f name _ ih =>
      unfold global
      split
      · exact ih
      · exact ⟨(sound_add_value f (.global name) ih).listed, ih.ended⟩
  | reserve f _ ih => exact sound_add_value f .pending ih
  | define f id instr _ slot _ ih => exact sound_define f id instr ih slot
  | push f instr _ _ ih =>
      refine sound_define f.reserve.1 f.reserve.2 instr (sound_add_value f .pending ih) ?_
      show f.values.length < (f.values ++ [Value.pending]).length
      rw [List.length_append]
      exact Nat.lt_succ_self _
  | link f _ _ ih => exact sound_link f ih

theorem ids_define (f : Func) (id : ValueId) (instr : Instr) :
    (f.define id instr).blocks.map Block.id = f.blocks.map Block.id := by
  apply List.ext_getElem?
  intro position
  simp only [define, List.getElem?_map, List.getElem?_modify]
  cases f.blocks[position]? with
  | none => rfl
  | some block => split <;> rfl

theorem ids_link (f : Func) : f.link.blocks.map Block.id = f.blocks.map Block.id := by
  apply List.ext_getElem?
  intro position
  have here : f.link.blocks[position]? = (f.blocks[position]?).map (f.wired position) := link_block f position
  rw [List.getElem?_map, List.getElem?_map, here, Option.map_map]
  rfl

theorem built_ids (f : Func) (built : Built f) : f.blocks.map Block.id = f.blockIds := by
  induction built with
  | new name => rfl
  | addBlock f label weight _ ih =>
      have size : (f.addBlock label weight).1.blocks.length = f.blocks.length + 1 := List.length_append
      rw [blockIds, size, List.range_succ, ← blockIds, ← ih]
      exact List.map_append
  | addArgument f name type _ ih => exact ih
  | constant f text _ ih =>
      unfold constant
      split
      · exact ih
      · exact ih
  | global f name _ ih =>
      unfold global
      split
      · exact ih
      · exact ih
  | reserve f _ ih => exact ih
  | define f id instr _ _ _ ih =>
      rw [ids_define, ih, blockIds, blockIds]
      exact congrArg List.range (List.length_modify _ _ _).symm
  | push f instr _ _ ih =>
      have ids : (f.push instr).1.blocks.map Block.id = f.blocks.map Block.id := ids_define f.reserve.1 f.reserve.2 instr
      rw [ids, ih, blockIds, blockIds]
      exact congrArg List.range (List.length_modify _ _ _).symm
  | link f _ _ ih => rw [ids_link, ih, blockIds, blockIds, link_length]

theorem block_at_id (f : Func) (built : Built f) (block : Block) (member : block ∈ f.blocks) :
    f.block? block.id = some block := by
  obtain ⟨position, here⟩ := List.mem_iff_getElem?.mp member
  have inside := (List.getElem?_eq_some_iff.mp here).1
  have place : (f.blocks.map Block.id)[position]? = some position := by
    rw [built_ids f built, blockIds, List.getElem?_range inside]
  rw [List.getElem?_map, here] at place
  rw [Option.some.inj place]
  exact here

-- The entry and the exits are told by the ids that the blocks have.
theorem entry_id (f : Func) (built : Built f) : f.entry? = f.blocks.head?.map Block.id := by
  have ids := built_ids f built
  unfold entry? blockIds at *
  cases blocks : f.blocks with
  | nil => rfl
  | cons block rest =>
      rw [blocks, List.length_cons, List.range_succ_eq_map, List.map_cons] at ids
      rw [List.head?_cons, Option.map_some, (List.cons.inj ids).1]
      rfl

theorem exits_ids (f : Func) (built : Built f) :
    f.exits = (f.blocks.filter fun block => block.succ.isEmpty).map Block.id := by
  rw [exits, ← built_ids f built, List.filter_map]
  congr 1
  refine List.filter_congr fun block member => ?_
  rw [Function.comp_apply, succ, block_at_id f built block member, Option.elim_some]

end LoopDeps.Func
