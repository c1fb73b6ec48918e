import LoopDeps.Proofs.Text.Scanning
import LoopDeps.Proofs.Text.Writing
import LoopDeps.Text.Parse
set_option autoImplicit false

/- Whatever the grammar reads is spelled as it asks for. A property of what a part reads passes on to what the parts
   around it read, so that every name, opcode and operand of a module that can be read is a valid one. -/
namespace LoopDeps.Text

open Source (IsOperand)

structure WrittenInstr.Spelled (instr : WrittenInstr) : Prop where
  result : ∀ name ∈ instr.result, IsName name
  opcode : IsOpcode instr.opcode
  operands : ∀ operand ∈ instr.operands, IsOperand operand

structure WrittenBlock.Spelled (block : WrittenBlock) : Prop where
  label : IsIdentifier block.label
  instrs : ∀ instr ∈ block.instrs, instr.Spelled

structure WrittenFunction.Spelled (function : WrittenFunction) : Prop where
  name : IsName function.name
  params : ∀ param ∈ function.params, IsName param.name
  blocks : ∀ block ∈ function.blocks, block.Spelled

namespace Matcher

-- All that a part reads is good.
def Yields {ρ α : Type} (p : Matcher ρ α) (good : α → Prop) : Prop := ∀ s value rest, p.read s = some (value, rest) → good value

section

variable {ρ α β : Type} {p : Matcher ρ α} {q : Matcher ρ β} {good : α → Prop} {fine : β → Prop}

theorem yields_any (p : Matcher ρ α) : p.Yields fun _ => True := fun _ _ _ _ => trivial

theorem Yields.named {rule : ρ} (yields : p.Yields good) : (Matcher.named rule p).Yields good := yields

theorem Yields.map (f : α → β) (yields : p.Yields good) (passes : ∀ value, good value → fine (f value)) :
    (p.map f).Yields fine := by
  intro s value rest read
  obtain ⟨⟨first, _⟩, here, same⟩ := Option.map_eq_some_iff.mp read
  cases same
  exact passes first (yields s first rest here)

theorem Yields.andThen (first : p.Yields good) (second : q.Yields fine) :
    (p.andThen q).Yields fun both => good both.1 ∧ fine both.2 := by
  intro s both rest read
  simp only [Matcher.andThen] at read
  split at read
  · cases read
  · rename_i value left here
    obtain ⟨⟨other, after⟩, there, same⟩ := Option.map_eq_some_iff.mp read
    cases same
    exact ⟨first s value left here, second _ other after there⟩

theorem Yields.keepLeft (first : p.Yields good) (q : Matcher ρ β) : (p.keepLeft q).Yields good :=
  (first.andThen (yields_any q)).map Prod.fst fun _ both => both.1

theorem Yields.keepRight (p : Matcher ρ α) (second : q.Yields fine) : (p.keepRight q).Yields fine :=
  ((yields_any p).andThen second).map Prod.snd fun _ both => both.2

theorem Yields.orElse {q : Matcher ρ α} (first : p.Yields good) (second : q.Yields good) : (p.orElse q).Yields good := by
  intro s value rest read
  simp only [Matcher.orElse] at read
  split at read
  · exact second s value rest read
  · rename_i found here
    cases read
    exact first s value rest here

theorem Yields.option (yields : p.Yields good) : p.option.Yields fun found => ∀ value ∈ found, good value := by
  refine (yields.map some fun value fits => ?_).orElse fun _ _ _ read => ?_
  · intro other same
    cases same
    exact fits
  · cases read
    simp

theorem Yields.read_more (yields : p.Yields good) (fuel : Nat) (s : Chars) : ∀ value ∈ (p.readMore fuel s).1, good value := by
  induction fuel generalizing s with
  | zero => exact fun _ member => (List.not_mem_nil member).elim
  | succ fuel ih =>
      rw [readMore]
      split
      · exact fun _ member => (List.not_mem_nil member).elim
      · rename_i value rest here
        exact List.forall_mem_cons.mpr ⟨yields _ value rest here, ih rest⟩

theorem Yields.many (yields : p.Yields good) : p.many.Yields fun values => ∀ value ∈ values, good value := by
  intro s values rest read
  simp only [Matcher.many] at read
  split at read
  · cases read
    exact fun _ member => (List.not_mem_nil member).elim
  · rename_i value left here
    cases read
    exact List.forall_mem_cons.mpr ⟨yields s value left here, yields.read_more _ _⟩

theorem Yields.many1 (yields : p.Yields good) : p.many1.Yields fun values => ∀ value ∈ values, good value :=
  (yields.andThen yields.many).map _ fun _ both => List.forall_mem_cons.mpr both

theorem yields_scanner {scan : Scanner} {spelled : String → Prop}
    (sound : ∀ s text rest, scan s = some (text, rest) → spelled (String.ofList text)) :
    (ofScanner scan : Matcher ρ String).Yields spelled := by
  intro s value rest read
  obtain ⟨⟨text, _⟩, here, same⟩ := Option.map_eq_some_iff.mp read
  cases same
  exact sound s text rest here

end

end Matcher

theorem sigil_sound (sigil : Char) (s text rest : Chars) (reads : sigilName sigil s = some (text, rest)) :
    IsName (String.ofList text) := by
  unfold sigilName at reads
  split at reads
  · cases reads
  · split at reads
    · obtain ⟨_, filled, all⟩ := one_or_more_sound isNameChar _ text rest reads
      obtain ⟨c, more, rfl⟩ := List.exists_cons_of_ne_nil filled
      obtain ⟨first, others⟩ := List.forall_mem_cons.mp all
      exact ⟨c, more, String.toList_ofList, first, others⟩
    · cases reads

theorem start_then_sound (start member : Char → Bool) (s text rest : Chars)
    (reads : startThen start member s = some (text, rest)) : Spelled start member (String.ofList text) := by
  unfold startThen at reads
  split at reads
  · cases reads
  · rename_i c more
    split at reads
    · rename_i first
      cases reads
      exact ⟨c, _, String.toList_ofList, first, List.all_eq_true.mp List.all_takeWhile⟩
    · cases reads

theorem word_sound (words : List String) (extends? : Char → Bool) (s text rest : Chars)
    (reads : wordOf words extends? s = some (text, rest)) : String.ofList text ∈ words := by
  rw [word_of_eq] at reads
  obtain ⟨word, listed, here⟩ := List.exists_of_findSome?_eq_some reads
  unfold oneWord at here
  split at here
  · cases here
  · split at here
    · cases here
    · cases here
      rwa [String.ofList_toList]

namespace Grammar

open Matcher
open Source (IsValue)

theorem yields_local : localName.Yields IsName := (yields_scanner (sigil_sound '%')).named

theorem yields_global : globalName.Yields IsName := (yields_scanner (sigil_sound '@')).named

theorem yields_constant : constant.Yields fun text => IsNumber text ∨ IsKeyword text := by
  have numbers : number.Yields fun text => IsNumber text ∨ IsKeyword text := by
    refine (yields_scanner fun s text rest reads => .inl ?_).named
    rw [IsNumber, String.toList_ofList]
    exact (number_sound s text rest reads).2
  have keywords : keyword.Yields fun text => IsNumber text ∨ IsKeyword text :=
    (yields_scanner fun s text rest reads => .inr (word_sound _ _ s text rest reads)).named
  exact (numbers.orElse keywords).named

theorem yields_value : value.Yields IsValue :=
  Yields.named <| Yields.orElse (Yields.map _ yields_local fun _ valid => valid) <|
    Yields.orElse (Yields.map _ yields_global fun _ valid => valid) <|
      Yields.map _ yields_constant fun _ valid => valid

theorem yields_operand : operand.Yields IsOperand := by
  have label : labelRef.Yields IsOperand :=
    Yields.named <| Yields.map _ (Yields.keepRight _ yields_local) fun _ valid => valid
  have pair : incoming.Yields IsOperand :=
    Yields.named <| Yields.map _ (Yields.andThen (Yields.keepRight _ (Yields.keepLeft yields_value _))
      (Yields.keepLeft yields_local _)) fun _ valid => valid
  exact Yields.named <| label.orElse <| pair.orElse <| Yields.map _ yields_value fun _ valid => valid

theorem yields_opcode : opcode.Yields IsOpcode := (yields_scanner (start_then_sound Char.isLower isOpcodeChar)).named

theorem yields_identifier : identifier.Yields IsIdentifier := (yields_scanner (start_then_sound isNameStart isNameChar)).named

theorem yields_comma_separated {α : Type} {item : Part α} {good : α → Prop} (yields : item.Yields good) :
    (commaSeparated item).Yields fun listed => ∀ value ∈ listed, good value :=
  (yields.andThen (yields.keepRight _).many).map _ fun _ valid => List.forall_mem_cons.mpr valid

-- A list that may be left out.
theorem all_of_listed {α : Type} {good : α → Prop} (listed : Option (List α))
    (valid : ∀ values ∈ listed, ∀ value ∈ values, good value) : ∀ value ∈ listed.getD [], good value := by
  cases listed with
  | none => exact fun _ member => (List.not_mem_nil member).elim
  | some values => exact valid values rfl

theorem yields_operands : operands.Yields fun listed => ∀ operand ∈ listed, IsOperand operand :=
  (yields_comma_separated yields_operand).named

theorem yields_instr : instr.Yields WrittenInstr.Spelled := by
  have assigned : assign.Yields IsName := (yields_local.keepLeft _).named
  refine Yields.named (Yields.map _ (assigned.option.andThen (yields_opcode.andThen ((yields_any _).andThen
    yields_operands.option))) ?_)
  rintro ⟨result, opcode, type, operands⟩ ⟨result, opcode, _, valid⟩
  exact ⟨result, opcode, all_of_listed operands valid⟩

theorem yields_block : block.Yields WrittenBlock.Spelled := by
  refine Yields.named (Yields.map _ ((yields_identifier.keepLeft _).andThen ((yields_any _).andThen
    ((yields_instr.keepLeft _).many.keepRight _))) ?_)
  exact fun _ valid => ⟨valid.1, valid.2.2⟩

theorem yields_params : params.Yields fun listed => ∀ param ∈ listed, IsName param.name := by
  have one : param.Yields fun param => IsName param.name :=
    Yields.named (Yields.map _ ((yields_local.keepLeft _).andThen (yields_any _)) fun _ valid => valid.1)
  exact (yields_comma_separated one).named

theorem yields_header : header.Yields fun header => IsName header.1 ∧ ∀ param ∈ header.2, IsName param.name := by
  have listed : (params.option.map fun params => params.getD []).Yields fun params => ∀ param ∈ params, IsName param.name :=
    Yields.map _ yields_params.option all_of_listed
  exact Yields.andThen (Yields.keepRight _ yields_global) (Yields.keepRight _ (listed.keepLeft _))

theorem yields_function : function.Yields WrittenFunction.Spelled := by
  refine Yields.named (Yields.map _ (yields_header.andThen (((yields_block.many1.keepLeft _).keepRight _).keepRight _)) ?_)
  exact fun _ valid => ⟨valid.1.1, valid.1.2, valid.2⟩

theorem yields_program : program.Yields fun functions => ∀ function ∈ functions, function.Spelled :=
  ((((yields_function.keepLeft _).many.keepLeft _).keepRight _).keepRight _).named

end Grammar

-- All words of a module that can be read are valid ones.
theorem read_spelled (text : Chars) (functions : List WrittenFunction) (reads : read text = .ok functions) :
    ∀ function ∈ functions, function.Spelled := by
  unfold read at reads
  split at reads
  · rename_i rest here
    cases reads
    exact Grammar.yields_program text functions rest here
  · cases reads

end LoopDeps.Text
