import LoopDeps.Text.Grammar
import LoopDeps.Proofs.Text.Scanning
set_option autoImplicit false

/- The parts of the grammar that stay within a line, from signs up to instructions and headers. Texts that go on in step
   give the same parts, and each part takes at least one character. -/
namespace LoopDeps.Text.Grammar

open Matcher

section

variable {near : Chars → Chars → Prop} (inStep : InStep near)

include inStep

theorem steady_sign (text : String) (lexeme : isLexeme text = true) : (sign text).Steady near 1 := by
  obtain ⟨solid, filled⟩ := lexeme_solid text lexeme
  refine ⟨?_, fun s t close => (literal_agrees inStep text.toList solid _ _ close).mono inStep.skips⟩
  intro s value rest read
  obtain ⟨_, dropped, same⟩ := Option.map_eq_some_iff.mp read
  cases same
  have bound := drop_literal_length text.toList s rest dropped
  have positive := List.length_pos_iff.mpr filled
  omega

theorem steady_token (rule : Rule) (scan : Scanner) (scans : Scans near 1 scan) : (token rule scan).Steady near 1 :=
  (steady_scanner inStep scans).named

theorem steady_identifier : identifier.Steady near 1 :=
  steady_token inStep .identifier _
    (start_then_scans inStep isNameStart isNameChar (solid_of_name _ start_in_name) names_solid)

theorem steady_local : localName.Steady near 1 := steady_token inStep .localName _ (sigil_scans inStep '%' rfl)

theorem steady_global : globalName.Steady near 1 := steady_token inStep .globalName _ (sigil_scans inStep '@' rfl)

theorem steady_number : number.Steady near 1 := steady_token inStep .number _ (number_scans inStep)

theorem steady_constant : constant.Steady near 1 := by
  have words : keyword.Steady near 1 := steady_token inStep .keyword _ <| words_scan inStep
    ["true", "false", "null", "undef", "zeroinitializer"] _ (solid_of_name _ fun c member => by
      rcases Bool.or_eq_true_iff.mp member with letter | line
      · exact letter_in_name c letter
      · simp [isNameChar, line]) rfl
  exact ((steady_number inStep).orElse words).named

theorem steady_opcode : opcode.Steady near 1 :=
  steady_token inStep .opcode _
    (start_then_scans inStep Char.isLower isOpcodeChar (solid_of_name _ lower_in_name) (solid_of_name _ opcode_in_name))

theorem steady_type_word (rule : Rule) (words : List String) (lexemes : words.all isLexeme = true) :
    (token rule (wordOf words Char.isAlphanum)).Steady near 1 :=
  steady_token inStep rule _ (words_scan inStep words Char.isAlphanum (solid_of_name _ letter_in_name) lexemes)

theorem steady_length : ((sign "<").keepRight (number.keepLeft (sign "x"))).Steady near 3 :=
  (steady_sign inStep "<" rfl).keepRight
    ((steady_number inStep).keepLeft (steady_sign inStep "x" rfl))

theorem steady_type_step (element : Part WrittenType) (steady : element.Steady near 0) :
    (typeStep element).Steady near 1 := by
  have closing := steady_sign inStep ">" rfl
  have vector : (vectorType element).Steady near 1 :=
    ((((steady_length inStep).andThen (steady.keepLeft closing)).map _).named).weaken (by decide)
  have ptr : ptrType.Steady near 1 := (steady_type_word inStep .ptrType ["ptr"] rfl).map _
  have void : voidType.Steady near 1 := (steady_type_word inStep .voidType ["void"] rfl).map _
  have float : floatType.Steady near 1 := (steady_type_word inStep .floatType ["half", "float", "double", "fp128"] rfl).map _
  have int : intType.Steady near 1 := (steady_token inStep .intType _ (int_scans inStep)).map _
  exact (vector.orElse (ptr.orElse (void.orElse (float.orElse int)))).named

theorem steady_level (levels : Nat) : (level typeStep levels).Steady near 0 := by
  induction levels with
  | zero => exact ⟨nofun, fun _ _ _ => .missed⟩
  | succ levels ih =>
      have step := (steady_type_step inStep (level typeStep levels) ih).weaken (Nat.zero_le _)
      exact ⟨step.takes, step.agree⟩

end

-- A text is read alike within any number of levels above its length.
theorem type_step_same (first second : Part WrittenType) (size : Nat)
    (same : ∀ s : Chars, s.length < size → first.read s = second.read s) (s : Chars) (fits : s.length < size + 1) :
    (typeStep first).read s = (typeStep second).read s := by
  have opening : ∀ value rest, ((sign "<").keepRight (number.keepLeft (sign "x"))).read s = some (value, rest) →
      (skip rest).length < size := by
    intro value rest read
    have bound := (steady_length in_step_eq).takes s value rest read
    have blanks := skip_bound rest
    omega
  have vector : (vectorType first).read s = (vectorType second).read s := by
    refine congrArg (Option.map _) (read_then_same s fun value rest here => ?_)
    simp only [keepLeft, Matcher.map, andThen, same _ (opening value rest here)]
  simp only [typeStep, named, orElse, vector]

theorem level_same (levels more : Nat) (s : Chars) (fits : s.length < levels) (further : levels ≤ more) :
    (level typeStep levels).read s = (level typeStep more).read s := by
  induction levels generalizing more s with
  | zero => exact absurd fits (Nat.not_lt_zero _)
  | succ levels ih =>
      cases more with
      | zero => exact absurd further (Nat.not_succ_le_zero _)
      | succ more =>
          refine type_step_same (level typeStep levels) (level typeStep more) levels ?_ s fits
          exact fun rest shorter => ih more rest shorter (Nat.le_of_succ_le_succ further)

section

variable {near : Chars → Chars → Prop} (inStep : InStep near)

include inStep

theorem steady_type : type.Steady near 1 := by
  refine ⟨?_, ?_⟩
  · exact fun s => (steady_type_step inStep _ (steady_level inStep s.length)).takes s
  · intro s t close
    have levels := (steady_level inStep ((skip s).length + 1 + ((skip t).length + 1))).agree s t close
    rw [← level_same ((skip s).length + 1) _ (skip s) (Nat.lt_succ_self _) (Nat.le_add_right _ _),
      ← level_same ((skip t).length + 1) _ (skip t) (Nat.lt_succ_self _) (Nat.le_add_left _ _)] at levels
    exact levels

theorem steady_value : value.Steady near 1 :=
  (((steady_local inStep).map _).orElse
    (((steady_global inStep).map _).orElse ((steady_constant inStep).map _))).named

theorem steady_label : labelRef.Steady near 1 :=
  ((((steady_sign inStep "label" rfl).keepRight (steady_local inStep)).map _).named).weaken (by decide)

theorem steady_incoming : incoming.Steady near 1 := by
  have first := (steady_sign inStep "[" rfl).keepRight
    ((steady_value inStep).keepLeft (steady_sign inStep "," rfl))
  have second := (steady_local inStep).keepLeft (steady_sign inStep "]" rfl)
  exact (((first.andThen second).map _).named).weaken (by decide)

theorem steady_operand : operand.Steady near 1 :=
  ((steady_label inStep).orElse ((steady_incoming inStep).orElse ((steady_value inStep).map _))).named

theorem steady_listed {α : Type} (item : Part α) (steady : item.Steady near 1) : (commaSeparated item).Steady near 1 :=
  (steady.andThen (((steady_sign inStep "," rfl).keepRight steady).many)).map _

theorem steady_assign : assign.Steady near 1 :=
  (((steady_local inStep).keepLeft (steady_sign inStep "=" rfl)).named).weaken (by decide)

theorem steady_instr : instr.Steady near 1 := by
  have operands : operands.Steady near 1 := (steady_listed inStep operand (steady_operand inStep)).named
  have parts := ((steady_assign inStep).option).andThen
    ((steady_opcode inStep).andThen (((steady_type inStep).option).andThen (operands.option)))
  exact (parts.map _).named

theorem steady_weight : weight.Steady near 1 :=
  (((steady_sign inStep "!weight" rfl).keepRight (steady_number inStep)).named).weaken (by decide)

-- A block up to its label.
theorem steady_block_label : (identifier.keepLeft (sign ":")).Steady near 1 :=
  ((steady_identifier inStep).keepLeft (steady_sign inStep ":" rfl)).weaken (by decide)

theorem steady_param : param.Steady near 1 := by
  have names := (steady_local inStep).keepLeft (steady_sign inStep ":" rfl)
  exact (((names.andThen (steady_type inStep)).map _).named).weaken (by decide)

theorem steady_header : header.Steady near 1 := by
  have params : params.Steady near 1 := (steady_listed inStep param (steady_param inStep)).named
  have name := (steady_sign inStep "func" rfl).keepRight (steady_global inStep)
  have listed := (steady_sign inStep "(" rfl).keepRight
    (((params.option).map fun params => params.getD []).keepLeft (steady_sign inStep ")" rfl))
  exact (name.andThen listed).weaken (by decide)

end

end LoopDeps.Text.Grammar
