import LoopDeps.Proofs.Text.Faithful
import LoopDeps.Proofs.Text.Lines
import LoopDeps.Proofs.Text.Numerals
set_option autoImplicit false

/- A module that is written and read again comes back as it was. -/
namespace LoopDeps

namespace Ty

theorem word_of_nat (n : Nat) (fits : n < Nat.pow 2 32) : Decimal.word? (Output.digitsOf n) = some n := by
  have filled : (Output.digitsOf n).isEmpty = false := by simpa using Output.digits_of_filled n
  have clean : (Output.digitsOf n).any (fun c => !c.isDigit) = false := by simpa using Output.digit_of_mem n
  rw [Decimal.word?, filled, clean, Bool.or_self, if_neg Bool.false_ne_true, Output.value_of_digits, if_pos fits]

theorem resolve_written (ty : Ty) (fits : ty.Fits) : ty.written.resolve = .ok ty := by
  induction ty with
  | int bits =>
      have width : Decimal.word? (toString bits).toList = some bits := word_of_nat bits fits
      simp only [written, Text.WrittenType.resolve, width]
  | vector length element ih =>
      have count : Decimal.word? (toString length).toList = some length := word_of_nat length fits.1
      simp only [written, Text.WrittenType.resolve, count, ih fits.2]
      rfl
  | _ => rfl

theorem meaning_written (ty : Ty) (fits : ty.Fits) : ty.written.meaning = ty := by
  rw [Text.WrittenType.meaning, resolve_written ty fits]

end Ty

namespace Text

-- The entries of one block are its instructions.
theorem entries_of_block (blocks : List WrittenBlock) (id : BlockId) :
    ((entries blocks).filter fun entry => entry.1 = id).map Prod.snd = blocks[id]?.elim [] WrittenBlock.instrs := by
  induction blocks using List.reverseRecOn with
  | nil => rfl
  | append_singleton blocks block ih =>
      rw [entries_append, List.filter_append, List.map_append, ih]
      rcases Nat.lt_trichotomy id blocks.length with before | rfl | after
      · rw [List.getElem?_append_left before]
        simp [Nat.ne_of_gt before]
      · simp [List.filter_map, Function.comp_def]
      · have outside : (blocks ++ [block])[id]? = none :=
          List.getElem?_eq_none (by rw [List.length_append]; exact after)
        rw [outside, List.getElem?_eq_none (Nat.le_of_lt after)]
        simp [Nat.ne_of_lt after]

end Text

namespace Text.WrittenFunction

theorem argument_iff (written : WrittenFunction) (id : ValueId) (name : String) (type : Ty) :
    written.resolved.value? id = some (.argument name type) ↔
      ∃ param, written.params[id]? = some param ∧ param.name = name ∧ param.type.meaning = type := by
  constructor
  · intro here
    rw [Func.value?, resolved_values, List.append_assoc] at here
    rcases Nat.lt_or_ge id written.arguments.length with before | behind
    · rw [List.getElem?_append_left before, arguments, List.getElem?_map] at here
      obtain ⟨param, found, same⟩ := Option.map_eq_some_iff.mp here
      cases same
      exact ⟨param, found, rfl, rfl⟩
    · rw [List.getElem?_append_right behind] at here
      rcases List.mem_append.mp (List.mem_of_getElem? here) with made | shared
      · obtain ⟨_, _, same⟩ := List.mem_map.mp made
        cases same
      · rcases written.shared_kinds _ shared with ⟨_, same⟩ | ⟨_, same⟩ <;> cases same
  · rintro ⟨param, here, rfl, rfl⟩
    exact written.argument_value id param here

-- The ids listed in a block stand for its instructions, in the same order.
theorem listing_instrs (written : WrittenFunction) (id : BlockId) (block : WrittenBlock) (here : written.blocks[id]? = some block) :
    List.Forall₂ (fun value instr => (id, instr) ∈ entries written.blocks ∧
      written.resolved.instr? value = some (written.instr id instr)) (written.listing id) block.instrs := by
  have ids : written.listing id =
      (((entries written.blocks).zipIdx written.params.length).filter fun item => item.1.1 = id).map Prod.snd := by
    rw [listing, instrs, List.zipIdx_map, List.filter_map, List.map_map]
    rfl
  have instrs : block.instrs = (((entries written.blocks).zipIdx written.params.length).filter
      fun item => item.1.1 = id).map fun item => item.1.2 := by
    have own := entries_of_block written.blocks id
    rw [here, Option.elim_some, ← List.zipIdx_map_fst written.params.length (entries written.blocks), List.filter_map,
      List.map_map] at own
    exact own.symm
  rw [ids, instrs, List.forall₂_map_left_iff, List.forall₂_map_right_iff, List.forall₂_same]
  rintro ⟨⟨place, instr⟩, value⟩ member
  obtain ⟨listed, same⟩ := List.mem_filter.mp member
  obtain rfl : place = id := by simpa using same
  obtain ⟨least, found⟩ := List.mem_zipIdx_iff_le_and_getElem?_sub.mp listed
  have filled := written.entry_value value (place, instr) least found
  exact ⟨List.mem_of_getElem? found, by rw [Func.instr?, filled]⟩

end Text.WrittenFunction

namespace Source.Instr

theorem meaning_written (instr : Instr) (valid : instr.Valid) : instr.written.meaning = instr.type := by
  cases has : instr.hasType with
  | true =>
      have type : instr.written.type = some instr.type.written := by simp [written, has]
      rw [Text.WrittenInstr.meaning, type]
      exact instr.type.meaning_written valid.type
  | false =>
      have type : instr.written.type = none := by simp [written, has]
      have void : instr.type = .void := by simpa [hasType] using (Bool.or_eq_false_iff.mp has).2
      rw [Text.WrittenInstr.meaning, type, void]
      rfl

end Source.Instr

namespace Source.Function

open Text (entries localNames)

variable (function : Function)

theorem names_written : (localNames function.written.params (entries function.written.blocks)).filterMap id = function.names := by
  have results : ((entries function.written.blocks).map fun entry => entry.2.result).filterMap id =
      function.blocks.flatMap fun block => block.instrs.filterMap Instr.result := by
    have row : (entries function.written.blocks).map (fun entry => entry.2.result) =
        (function.written.blocks.flatMap Text.WrittenBlock.instrs).map Text.WrittenInstr.result := by
      rw [← Text.entries_instrs, List.map_map]
      rfl
    rw [row, List.filterMap_map, List.filterMap_flatMap]
    simp [written, Block.written, List.flatMap_map, List.filterMap_map, Function.comp_def, Instr.written]
  rw [localNames, List.filterMap_append, results, names]
  simp [written, Param.written, List.filterMap_map, Function.comp_def]

theorem labels_written : function.written.blocks.map Text.WrittenBlock.label = function.labels := by
  simp [written, labels, Block.written, Function.comp_def]

theorem entry_written (entry : BlockId × Text.WrittenInstr) (member : entry ∈ entries function.written.blocks) :
    ∃ block ∈ function.blocks, ∃ instr ∈ block.instrs, entry.2 = instr.written := by
  obtain ⟨written, listed, inside⟩ := (Text.mem_entries _ entry).mp member
  obtain ⟨block, here, rfl⟩ := List.mem_map.mp (List.mem_of_getElem? listed)
  obtain ⟨instr, there, same⟩ := List.mem_map.mp inside
  exact ⟨block, here, instr, there, same.symm⟩

theorem resolvable (valid : function.Valid) : function.written.Resolvable where
  params := by
    intro param member
    obtain ⟨one, listed, rfl⟩ := List.mem_map.mp member
    exact ⟨one.type, one.type.resolve_written (valid.params one listed).type⟩
  declarable := by
    refine ⟨?_, ?_, ?_⟩
    · intro entry member type same
      obtain ⟨block, here, instr, there, spelled⟩ := function.entry_written entry member
      have fits := ((valid.blocks block here).instrs instr there).type
      rw [spelled, Instr.written] at same
      dsimp only at same
      split at same
      · cases same
        exact ⟨instr.type, instr.type.resolve_written fits⟩
      · cases same
    · rw [Text.Apart, names_written]
      exact valid.namesApart
    · rw [labels_written]
      exact valid.labelsApart
  known := by
    intro entry member operand used
    obtain ⟨block, here, instr, there, spelled⟩ := function.entry_written entry member
    rw [spelled] at used
    refine ⟨?_, ?_⟩
    · intro value same
      cases value with
      | name text =>
          have named := valid.valuesKnown block here instr there operand used text (by rw [same]; rfl)
          rw [← names_written, List.mem_filterMap] at named
          obtain ⟨_, listed, rfl⟩ := named
          exact (Text.local_known _ text).mpr listed
      | global text => trivial
      | constant text => trivial
    · intro label same
      have named := valid.labelsKnown block here instr there operand used label same
      rw [← labels_written] at named
      exact (Text.label_known _ label).mpr named

end Source.Function

namespace Func

-- The instruction under an id is the one that was written.
def HasInstr (f : Func) (id : ValueId) (source : Source.Instr) : Prop :=
  ∃ instr, f.instr? id = some instr ∧ instr.name = source.result ∧ instr.opcode = source.opcode ∧
    instr.type = source.type ∧ List.Forall₂ f.Denotes source.written.values instr.operands ∧
    instr.targets.map (fun target => (f.block? target).map Block.label) = source.written.labels.map some

-- A function as it was before it was written.
structure Restores (source : Source.Function) (f : Func) : Prop where
  name : f.name = source.name
  params : ∀ id name type, f.value? id = some (.argument name type) ↔ source.params[id]? = some ⟨name, type⟩
  labels : f.blocks.map Block.label = source.labels
  weights : List.Forall₂ (fun block written => Text.Numeral.Denotes written.weight block.weight) f.blocks source.blocks
  instrs : List.Forall₂ (fun block written => List.Forall₂ f.HasInstr block.instrs written.instrs) f.blocks source.blocks

end Func

namespace Source.Function

open Text (entries)

variable (function : Function) (valid : function.Valid)

include valid

theorem has_instr (block : BlockId) (instr : Instr) (fits : instr.Valid) (id : ValueId)
    (listed : (block, instr.written) ∈ entries function.written.blocks)
    (here : function.written.resolved.instr? id = some (function.written.instr block instr.written)) :
    function.written.resolved.HasInstr id instr := by
  have resolvable := function.resolvable valid
  refine ⟨_, here, rfl, rfl, instr.meaning_written fits, ?_, ?_⟩
  · rw [Text.WrittenFunction.instr, List.forall₂_map_right_iff, List.forall₂_same]
    exact function.written.denotes_operand resolvable _ listed
  · rw [Text.WrittenFunction.instr, List.map_map]
    apply List.map_congr_left
    intro label used
    obtain ⟨inside, named⟩ := function.written.finds_target resolvable _ listed label used
    rw [Func.labelOf, Func.block?, List.getElem?_eq_getElem inside] at named
    rw [Function.comp_apply, Func.block?, List.getElem?_eq_getElem inside, Option.map_some]
    exact congrArg some named

theorem restored : Func.Restores function function.written.resolved where
  name := by
    rw [Text.WrittenFunction.resolved, Func.link_eq]
    rfl
  params := by
    intro id name type
    rw [Text.WrittenFunction.argument_iff, written, List.getElem?_map]
    constructor
    · rintro ⟨_, found, rfl, rfl⟩
      obtain ⟨param, here, rfl⟩ := Option.map_eq_some_iff.mp found
      have same := param.type.meaning_written (valid.params param (List.mem_of_getElem? here)).type
      rw [here, Param.written]
      exact congrArg some (congrArg (Param.mk param.name) same.symm)
    · intro here
      have same := type.meaning_written (valid.params _ (List.mem_of_getElem? here)).type
      exact ⟨_, by rw [here, Option.map_some], rfl, same⟩
  labels := by rw [Text.WrittenFunction.labels_eq, labels_written]
  weights := by
    rw [List.forall₂_iff_get]
    refine ⟨by rw [Text.WrittenFunction.blocks_length, written, List.length_map], ?_⟩
    intro id inside bound
    have here : function.written.resolved.blocks[id]? = _ := function.written.resolved_block? id
    have source : function.written.blocks[id]? = some (function.blocks.get ⟨id, bound⟩).written := by
      simp [written, bound]
    rw [source, Option.map_some, List.getElem?_eq_getElem inside] at here
    have same := Option.some.inj here
    have read : (function.written.resolved.blocks.get ⟨id, inside⟩).weight =
        Decimal.double (function.blocks.get ⟨id, bound⟩).weight.toList := by
      rw [List.get_eq_getElem, same]
      rfl
    rw [read]
    exact Text.Numeral.denotes_double _ (valid.blocks _ (List.get_mem _ _)).weight
  instrs := by
    rw [List.forall₂_iff_get]
    refine ⟨by rw [Text.WrittenFunction.blocks_length, written, List.length_map], ?_⟩
    intro id inside bound
    have here : function.written.blocks[id]? = some (function.blocks.get ⟨id, bound⟩).written := by
      simp [written, bound]
    have listed := (function.written.resolved_block id _ (List.getElem?_eq_getElem inside)).1
    have items := function.written.listing_instrs id _ here
    rw [← listed, Block.written, List.forall₂_map_right_iff] at items
    obtain ⟨size, each⟩ := List.forall₂_iff_zip.mp items
    refine List.forall₂_iff_zip.mpr ⟨size, ?_⟩
    intro value instr paired
    have fits := (valid.blocks _ (List.get_mem _ _)).instrs instr (List.of_mem_zip paired).2
    exact function.has_instr valid id instr fits value (each paired).1 (each paired).2

end Source.Function

-- Reading inverts writing.
theorem parse_text (functions : List Source.Function) (valid : ∀ one ∈ functions, one.Valid) :
    ∃ fs, parse (Source.text functions) = .ok fs ∧ List.Forall₂ Func.Restores functions fs := by
  refine ⟨functions.map fun one => one.written.resolved, ?_, ?_⟩
  · rw [parse_ok_iff]
    refine ⟨_, Text.Grammar.read_text functions valid, ?_⟩
    rw [List.forall₂_map_left_iff, List.forall₂_map_right_iff, List.forall₂_same]
    intro one member
    exact (one.written.resolve_ok_iff _).mpr ⟨one.resolvable (valid one member), rfl⟩
  · rw [List.forall₂_map_right_iff, List.forall₂_same]
    exact fun one member => one.restored (valid one member)

-- A loop whose label an opcode could start, a vector, a word that starts as a type does and an operand used ahead.
def laterNames : Source.Function where
  name := "f"
  params := [⟨"v", .vector 4 (.int 32)⟩]
  blocks :=
    [⟨"entry", "1", [⟨none, "store", .void, true, [.value (.constant "false"), .value (.global "g")]⟩]⟩,
      ⟨"loop.1", "1.5e1",
        [⟨some "i", "phi", .int 32, false, [.incoming (.constant "0") "entry", .incoming (.name "j") "loop.1"]⟩,
          ⟨some "j", "add", .int 32, false, [.value (.name "i"), .value (.name "v")]⟩,
          ⟨none, "br", .void, false, [.label "loop.1"]⟩]⟩]

theorem later_names_valid : laterNames.Valid where
  name := by decide
  params := by decide
  blocks := by decide
  nonempty := by decide
  namesApart := by decide
  labelsApart := by decide
  valuesKnown := by decide
  labelsKnown := by decide

theorem later_names_read_back :
    (∀ one ∈ [laterNames], one.Valid) ∧
      ∃ fs, parse (Source.text [laterNames]) = .ok fs ∧ List.Forall₂ Func.Restores [laterNames] fs := by
  have valid : ∀ one ∈ [laterNames], one.Valid := List.forall_mem_singleton.mpr later_names_valid
  exact ⟨valid, parse_text [laterNames] valid⟩

end LoopDeps
