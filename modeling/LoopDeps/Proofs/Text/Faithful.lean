import LoopDeps.IR.Listing
import LoopDeps.Proofs.Text.Resolving
set_option autoImplicit false

/- A function read from a text is as the text has it: ids follow the order of the text, and every reference leads to
   what it names. -/
namespace LoopDeps

namespace Func

-- What a written value stands for.
def Denotes (f : Func) (value : Text.WrittenValue) (id : ValueId) : Prop :=
  match value with
  | .name text =>
      (∃ type, f.value? id = some (.argument text type)) ∨
        ∃ instr, f.value? id = some (.instr instr) ∧ instr.name = some text
  | .global text => f.value? id = some (.global text)
  | .constant text => f.value? id = some (.constant text)

theorem denotes_name (f : Func) (value : Text.WrittenValue) (id : ValueId) (denotes : f.Denotes value id) :
    f.valueName id = value.spelling := by
  cases value with
  | name text =>
      rcases denotes with ⟨type, here⟩ | ⟨instr, here, name⟩
      · rw [valueName, here]
        rfl
      · simp only [valueName, here, name]
        rfl
  | global text =>
      rw [valueName, show f.value? id = _ from denotes]
      rfl
  | constant text =>
      rw [valueName, show f.value? id = _ from denotes]
      rfl

theorem denotes_inside (f : Func) (value : Text.WrittenValue) (id : ValueId) (denotes : f.Denotes value id) :
    id < f.values.length := by
  have there : (f.value? id).isSome = true := by
    cases value with
    | name text => rcases denotes with ⟨type, here⟩ | ⟨instr, here, _⟩ <;> rw [here] <;> rfl
    | global text => exact Option.isSome_of_mem denotes
    | constant text => exact Option.isSome_of_mem denotes
  simpa [value?] using there

end Func

namespace Text

theorem first_uses_append (uses : List Value) (value : Value) :
    (uses ++ [value]).eraseDups = Func.note uses.eraseDups value := by
  rw [List.eraseDups_append, Func.note]
  by_cases member : value ∈ uses
  · simp [List.removeAll, member]
  · simp [List.removeAll, member, List.eraseDups_cons]

-- The shared values are the uses without later copies.
theorem noted_all_eq (values : List WrittenValue) :
    values.foldl WrittenValue.noted [] = (values.filterMap WrittenValue.shared?).eraseDups := by
  induction values using List.reverseRecOn with
  | nil => rfl
  | append_singleton values value ih =>
      rw [List.foldl_append, List.foldl_cons, List.foldl_nil, ih, WrittenValue.noted, List.filterMap_append]
      cases same : value.shared? with
      | none => simp [same]
      | some common => simp [same, first_uses_append]

namespace WrittenFunction

theorem shared_eq (written : WrittenFunction) :
    written.shared = (written.values.filterMap WrittenValue.shared?).eraseDups := noted_all_eq _

theorem shared_nodup (written : WrittenFunction) : written.shared.Nodup := noted_all_nodup _ [] List.nodup_nil

theorem shared_kinds (written : WrittenFunction) (value : Value) (member : value ∈ written.shared) :
    (∃ text, value = .constant text) ∨ ∃ name, value = .global name := by
  rw [shared_eq, List.mem_eraseDups, List.mem_filterMap] at member
  obtain ⟨used, _, same⟩ := member
  cases used with
  | name text => cases same
  | global text => exact .inr ⟨text, (Option.some.inj same).symm⟩
  | constant text => exact .inl ⟨text, (Option.some.inj same).symm⟩

theorem denotes_shared (written : WrittenFunction) (common : Value) (member : common ∈ written.shared) :
    written.resolved.value? (written.size + written.shared.idxOf common) = some common := by
  have bound := List.idxOf_lt_length_of_mem member
  rw [shared_value, List.getElem?_eq_getElem bound, List.getElem_idxOf bound]

-- A name leads to the parameter or the result of that name.
theorem denotes_local (written : WrittenFunction) (apart : Apart (localNames written.params (entries written.blocks)))
    (text : String) (id : ValueId) (here : written.scope.locals.lookup text = some id) :
    written.resolved.Denotes (.name text) id := by
  have place := (local_iff _ apart text id).mp here
  rw [localNames] at place
  rcases Nat.lt_or_ge id written.params.length with before | behind
  · rw [List.getElem?_append_left (by simpa using before), List.getElem?_map] at place
    obtain ⟨param, found, named⟩ := Option.map_eq_some_iff.mp place
    have value := written.argument_value id param found
    rw [Option.some.inj named] at value
    exact .inl ⟨_, value⟩
  · rw [List.getElem?_append_right (by simpa using behind), List.getElem?_map, List.length_map] at place
    obtain ⟨entry, found, named⟩ := Option.map_eq_some_iff.mp place
    exact .inr ⟨_, written.entry_value id entry behind found, named⟩

-- Operands lead to what they name.
theorem denotes_id (written : WrittenFunction) (apart : Apart (localNames written.params (entries written.blocks)))
    (value : WrittenValue) (used : value ∈ written.values) (known : value.Known written.scope) :
    written.resolved.Denotes value (value.idIn written.scope written.size written.shared) := by
  have noted := mem_noted_all written.values [] value used
  cases value with
  | name text =>
      obtain ⟨id, here⟩ := Option.isSome_iff_exists.mp known
      rw [WrittenValue.idIn, here]
      exact written.denotes_local apart text id here
  | global text => exact written.denotes_shared _ (noted _ rfl)
  | constant text => exact written.denotes_shared _ (noted _ rfl)

theorem labels_eq (written : WrittenFunction) :
    written.resolved.blocks.map Block.label = written.blocks.map WrittenBlock.label := by
  apply List.ext_getElem?
  intro id
  have here : written.resolved.blocks[id]? = _ := written.resolved_block? id
  rw [List.getElem?_map, List.getElem?_map, here, Option.map_map]
  rfl

theorem blocks_length (written : WrittenFunction) : written.resolved.blocks.length = written.blocks.length := by
  rw [← List.length_map Block.label, labels_eq, List.length_map]

theorem block_ids (written : WrittenFunction) :
    written.resolved.blocks.map Block.id = List.range written.resolved.blocks.length := by
  apply List.ext_getElem?
  intro id
  have here : written.resolved.blocks[id]? = _ := written.resolved_block? id
  rw [List.getElem?_map, here, Option.map_map, blocks_length]
  by_cases inside : id < written.blocks.length
  · rw [List.getElem?_eq_getElem inside, List.getElem?_range inside]
    rfl
  · rw [List.getElem?_eq_none (Nat.le_of_not_lt inside), List.getElem?_eq_none (by simpa using inside)]
    rfl

-- A label leads to the block that has it.
theorem target_of (written : WrittenFunction) (apart : (written.blocks.map WrittenBlock.label).Nodup) (label : String)
    (known : (written.scope.labels.lookup label).isSome = true) :
    let target := (written.scope.labels.lookup label).getD 0
    target < written.resolved.blocks.length ∧ written.resolved.labelOf target = label := by
  obtain ⟨id, here⟩ := Option.isSome_iff_exists.mp known
  have place := (label_iff _ apart label id).mp here
  rw [here, Option.getD_some]
  rw [← labels_eq, List.getElem?_map] at place
  obtain ⟨block, found, named⟩ := Option.map_eq_some_iff.mp place
  refine ⟨(List.getElem?_eq_some_iff.mp found).1, ?_⟩
  rw [Func.labelOf, Func.block?, found, Option.elim_some, named]

-- Every instruction of a resolved function is one of the text.
theorem made_of_instr (written : WrittenFunction) (id : ValueId) (instr : Instr)
    (here : written.resolved.instr? id = some instr) : instr ∈ written.instrs := by
  have value : written.resolved.value? id = some (.instr instr) := by
    unfold Func.instr? at here
    split at here
    · rename_i same
      rw [same, Option.some.inj here]
    · cases here
  rcases written.value_kinds id _ value with ⟨_, _, same⟩ | ⟨made, listed, same⟩ | ⟨_, shared⟩
  · cases same
  · cases same
    exact listed
  · rcases written.shared_kinds _ (List.mem_of_getElem? shared) with ⟨_, same⟩ | ⟨_, same⟩ <;> cases same

theorem closed_unlinked (written : WrittenFunction) (resolvable : written.Resolvable) : written.unlinked.Closed := by
  intro block _ target member
  unfold Func.targetsOf at member
  split at member
  · rename_i instr last
    obtain ⟨id, _, here⟩ := Option.bind_eq_some_iff.mp last
    rw [← Func.link_instr, ← resolved] at here
    obtain ⟨entry, listed, rfl⟩ := List.mem_map.mp (written.made_of_instr id instr here)
    obtain ⟨label, named, rfl⟩ := List.mem_map.mp member
    obtain ⟨operand, used, same⟩ := List.mem_filterMap.mp named
    have known := (resolvable.known entry listed operand used).2 label same
    have inside := (written.target_of resolvable.declarable.labels label known).1
    have size : written.unlinked.blocks.length = written.blocks.length := List.length_mapIdx
    rwa [size, ← blocks_length]
  · cases member

theorem listing_eq (written : WrittenFunction) (block : BlockId) :
    written.listing block = (List.range' written.params.length (entries written.blocks).length).filter fun id =>
      (written.resolved.instr? id).any fun instr => instr.block = block := by
  rw [listing, ← instrs_length, ← List.zipIdx_map_snd, List.filter_map]
  congr 1
  apply List.filter_congr
  rintro ⟨instr, id⟩ member
  obtain ⟨least, here⟩ := List.mem_zipIdx_iff_le_and_getElem?_sub.mp member
  have value := written.instr_value _ _ here
  rw [Nat.add_sub_cancel' least] at value
  simp [Func.instr?, value]

end WrittenFunction

end Text

namespace Func

-- An instruction as the text has it.
structure Transcribes (f : Func) (block : BlockId) (written : Text.WrittenInstr) (instr : Instr) : Prop where
  result : instr.name = written.result
  opcode : instr.opcode = written.opcode
  type : instr.type = written.meaning
  placed : instr.block = block
  blockInside : block < f.blocks.length
  operands : instr.operands.map f.valueName = written.values.map Text.WrittenValue.spelling
  operandsInside : ∀ id ∈ instr.operands, id < f.values.length
  targets : instr.targets.map f.labelOf = written.labels
  targetsInside : ∀ id ∈ instr.targets, id < f.blocks.length

-- A function as the text has it.
structure Faithful (written : Text.WrittenFunction) (f : Func) : Prop where
  name : f.name = written.name
  ids : f.blocks.map Block.id = List.range f.blocks.length
  labels : f.blocks.map Block.label = written.blocks.map Text.WrittenBlock.label
  labelsApart : (f.blocks.map Block.label).Nodup
  arguments : ∀ i param, written.params[i]? = some param →
    f.value? i = some (.argument param.name param.type.meaning)
  instrs : ∀ j block instr, (Text.entries written.blocks)[j]? = some (block, instr) →
    ∃ made, f.value? (written.params.length + j) = some (.instr made) ∧ f.Transcribes block instr made
  shared : f.values.drop written.size = (written.values.filterMap Text.WrittenValue.shared?).eraseDups
  finished : Value.pending ∉ f.values
  listings : ∀ id block, f.blocks[id]? = some block →
    block.instrs = (List.range' written.params.length (Text.entries written.blocks).length).filter fun value =>
      (f.instr? value).any fun instr => instr.block = id
  constantsApart : ∀ a b text, f.value? a = some (.constant text) → f.value? b = some (.constant text) → a = b
  globalsApart : ∀ a b name, f.value? a = some (.global name) → f.value? b = some (.global name) → a = b
  succ : ∀ id block, f.blocks[id]? = some block →
    f.succ id = (block.instrs.getLast?.bind f.instr?).elim [] Instr.targets
  prev : ∀ a b, (f.prev b).count a = (f.succ a).count b

end Func

namespace Text.WrittenFunction

section

variable (written : WrittenFunction) (resolvable : written.Resolvable) (entry : BlockId × WrittenInstr)
  (member : entry ∈ entries written.blocks)

include resolvable member

theorem denotes_operand (value : WrittenValue) (used : value ∈ entry.2.values) :
    written.resolved.Denotes value (value.idIn written.scope written.size written.shared) := by
  obtain ⟨operand, here, same⟩ := List.mem_filterMap.mp used
  exact written.denotes_id resolvable.declarable.names value (List.mem_flatMap.mpr ⟨entry, member, used⟩)
    ((resolvable.known entry member operand here).1 value same)

theorem finds_target (label : String) (used : label ∈ entry.2.labels) :
    let target := (written.scope.labels.lookup label).getD 0
    target < written.resolved.blocks.length ∧ written.resolved.labelOf target = label := by
  obtain ⟨operand, here, same⟩ := List.mem_filterMap.mp used
  exact written.target_of resolvable.declarable.labels label ((resolvable.known entry member operand here).2 label same)

theorem transcribes : written.resolved.Transcribes entry.1 entry.2 (written.instr entry.1 entry.2) where
  result := rfl
  opcode := rfl
  type := rfl
  placed := rfl
  blockInside := by
    obtain ⟨block, here, _⟩ := (mem_entries written.blocks entry).mp member
    rw [blocks_length]
    exact (List.getElem?_eq_some_iff.mp here).1
  operands := by
    rw [instr, List.map_map]
    apply List.map_congr_left
    intro value used
    exact written.resolved.denotes_name value _ (written.denotes_operand resolvable entry member value used)
  operandsInside := by
    intro id operand
    obtain ⟨value, used, rfl⟩ := List.mem_map.mp operand
    exact written.resolved.denotes_inside value _ (written.denotes_operand resolvable entry member value used)
  targets := by
    rw [instr, List.map_map]
    conv => rhs; rw [← List.map_id entry.2.labels]
    apply List.map_congr_left
    intro label used
    exact (written.finds_target resolvable entry member label used).2
  targetsInside := by
    intro id target
    obtain ⟨label, used, rfl⟩ := List.mem_map.mp target
    exact (written.finds_target resolvable entry member label used).1

end

theorem shared_place (written : WrittenFunction) (common : Value) (id : ValueId)
    (shared : (∃ text, common = .constant text) ∨ ∃ name, common = .global name)
    (here : written.resolved.value? id = some common) :
    written.size ≤ id ∧ written.shared[id - written.size]? = some common := by
  rcases written.value_kinds id common here with ⟨_, _, rfl⟩ | ⟨_, _, rfl⟩ | place
  · rcases shared with ⟨_, same⟩ | ⟨_, same⟩ <;> cases same
  · rcases shared with ⟨_, same⟩ | ⟨_, same⟩ <;> cases same
  · exact place

theorem shared_apart (written : WrittenFunction) (common : Value)
    (shared : (∃ text, common = .constant text) ∨ ∃ name, common = .global name) (a b : ValueId)
    (here : written.resolved.value? a = some common) (there : written.resolved.value? b = some common) : a = b := by
  obtain ⟨behindA, placeA⟩ := written.shared_place common a shared here
  obtain ⟨behindB, placeB⟩ := written.shared_place common b shared there
  have bound := (List.getElem?_eq_some_iff.mp placeA).1
  have same := (List.getElem?_inj bound written.shared_nodup).mp (placeA.trans placeB.symm)
  rw [← Nat.sub_add_cancel behindA, same, Nat.sub_add_cancel behindB]

theorem finished (written : WrittenFunction) : Value.pending ∉ written.resolved.values := by
  intro member
  obtain ⟨id, here⟩ := List.mem_iff_getElem?.mp member
  rcases written.value_kinds id _ here with ⟨_, _, same⟩ | ⟨_, _, same⟩ | ⟨_, shared⟩
  · cases same
  · cases same
  · rcases written.shared_kinds _ (List.mem_of_getElem? shared) with ⟨_, same⟩ | ⟨_, same⟩ <;> cases same

theorem resolved_block (written : WrittenFunction) (id : BlockId) (block : Block)
    (here : written.resolved.blocks[id]? = some block) :
    block.instrs = written.listing id ∧ block.succ = written.resolved.targetsOf block := by
  obtain ⟨_, _, rfl⟩ := Option.map_eq_some_iff.mp ((written.resolved_block? id).symm.trans here)
  exact ⟨rfl, (written.unlinked.targets_link _ _ rfl).symm⟩

theorem faithful (written : WrittenFunction) (resolvable : written.Resolvable) :
    Func.Faithful written written.resolved where
  name := by
    rw [resolved, Func.link_eq]
    rfl
  ids := written.block_ids
  labels := written.labels_eq
  labelsApart := by
    rw [labels_eq]
    exact resolvable.declarable.labels
  arguments := written.argument_value
  instrs := by
    intro j block instr here
    have value := written.entry_value (written.params.length + j) (block, instr) (Nat.le_add_right _ _)
      (by rwa [Nat.add_sub_cancel_left])
    exact ⟨_, value, written.transcribes resolvable (block, instr) (List.mem_of_getElem? here)⟩
  shared := by rw [resolved_values, ← front_length, List.drop_left, shared_eq]
  finished := written.finished
  listings := by
    intro id block here
    rw [(written.resolved_block id block here).1, listing_eq]
  constantsApart := fun a b text => written.shared_apart _ (.inl ⟨text, rfl⟩) a b
  globalsApart := fun a b name => written.shared_apart _ (.inr ⟨name, rfl⟩) a b
  succ := by
    intro id block here
    have read : written.resolved.succ id = block.succ := by rw [Func.succ, Func.block?, here, Option.elim_some]
    rw [read, (written.resolved_block id block here).2, Func.targetsOf]
    cases block.instrs.getLast?.bind written.resolved.instr? <;> rfl
  prev := Func.count_prev_link written.unlinked (written.closed_unlinked resolvable)

end Text.WrittenFunction

theorem parsed_linked (text : String) (functions : List Func) (parses : parse text = .ok functions) :
    ∀ f ∈ functions, f.Linked := by
  obtain ⟨written, read, resolved⟩ := (parse_ok_iff text functions).mp parses
  clear parses read
  induction resolved with
  | nil => exact fun _ member => (List.not_mem_nil member).elim
  | @cons one f _ _ here _ ih =>
      obtain ⟨resolvable, rfl⟩ := (one.resolve_ok_iff f).mp here
      exact List.forall_mem_cons.mpr ⟨Func.linked_link _ (one.closed_unlinked resolvable), ih⟩

-- Every function of a text that can be read is as the text has it.
theorem parsed_faithful (text : String) (fs : List Func) (parsed : parse text = .ok fs) :
    ∃ written, Text.read text.toList = .ok written ∧ List.Forall₂ Func.Faithful written fs := by
  obtain ⟨written, found, resolved⟩ := (parse_ok_iff text fs).mp parsed
  refine ⟨written, found, resolved.imp ?_⟩
  intro one f here
  obtain ⟨resolvable, rfl⟩ := (one.resolve_ok_iff f).mp here
  exact one.faithful resolvable

-- A loop whose results are used ahead of their lines, with constants and a global.
def forwardText : String :=
"func @f(%n: i32) \x7b
entry:
  br label %loop
loop:
  %i = phi i32 [0, %entry], [%j, %loop]
  %p = gep ptr @a, %i
  %j = add i32 %i, 1
  %c = icmp i1 %j, %n
  br %c, label %loop, label %exit
exit:
  ret void
\x7d
"

theorem forward_text_parses : (parse forwardText).isOk = true := by decide +kernel

theorem forward_text_faithful :
    ∃ fs, parse forwardText = .ok fs ∧
      ∃ written, Text.read forwardText.toList = .ok written ∧ List.Forall₂ Func.Faithful written fs := by
  cases parsed : parse forwardText with
  | error error =>
      have parses := forward_text_parses
      rw [parsed] at parses
      cases parses
  | ok fs => exact ⟨fs, rfl, parsed_faithful forwardText fs parsed⟩

end LoopDeps
