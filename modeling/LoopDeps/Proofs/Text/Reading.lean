import LoopDeps.Proofs.Output.Fields
import LoopDeps.Proofs.Text.Writing
set_option autoImplicit false

/- The grammar takes the intended branch at every place of a written module, and reads what was written. -/
namespace LoopDeps.Text.Grammar

open Matcher

-- Two words that differ before the end of the shorter one.
def clash : Chars → Chars → Bool
  | a :: as, b :: bs => a != b || clash as bs
  | _, _ => false

theorem drop_literal_clash (literal text rest : Chars) (apart : clash literal text = true) :
    dropLiteral literal (text ++ rest) = none := by
  induction literal generalizing text with
  | nil => cases apart
  | cons l literal ih =>
      cases text with
      | nil => cases apart
      | cons c more =>
          rw [List.cons_append, dropLiteral]
          by_cases same : l = c
          · rw [if_pos same]
            apply ih
            simpa [clash, same] using apart
          · rw [if_neg same]

theorem word_of_reads (words : List String) (extends? : Char → Bool) (word : String) (rest : Chars) (member : word ∈ words)
    (apart : ∀ other ∈ words, other ≠ word → clash other.toList word.toList = true)
    (ends : ∀ c ∈ rest.head?, extends? c = false) :
    wordOf words extends? (word.toList ++ rest) = some (word.toList, rest) := by
  have taken : dropLiteral word.toList (word.toList ++ rest) = some rest := drop_literal_append word.toList rest
  unfold wordOf
  induction words with
  | nil => cases member
  | cons first others ih =>
      by_cases same : first = word
      · subst same
        rw [List.findSome?_cons, taken]
        cases rest with
        | nil => rfl
        | cons c more => simp only [ends c rfl, Bool.false_eq_true, if_false]
      · have missed := drop_literal_clash first.toList word.toList rest (apart first List.mem_cons_self same)
        rw [List.findSome?_cons, missed]
        have later : word ∈ others := by simpa [Ne.symm same] using member
        exact ih later fun other listed => apart other (List.mem_cons_of_mem _ listed)

section

variable (rest : Chars)

theorem takes_token (rule : Rule) (scan : Scanner) (text : String) (c : Char) (more : Chars)
    (same : text.toList = c :: more) (solid : isBlank c = false)
    (scans : scan (text.toList ++ rest) = some (text.toList, rest)) :
    (token rule scan).Takes (text.toList ++ rest) text rest := by
  apply Takes.named
  apply Takes.of_read
  rw [same, List.cons_append, skip_solid c _ solid, ← List.cons_append, ← same]
  simp only [ofScanner, scans, Option.map_some, String.ofList_toList]

theorem takes_spelled (rule : Rule) (start member : Char → Bool) (text : String) (valid : Spelled start member text)
    (startInName : ∀ c, start c = true → isNameChar c = true) (ends : ∀ c ∈ rest.head?, member c = false) :
    (token rule (startThen start member)).Takes (text.toList ++ rest) text rest := by
  have reads := start_then_reads start member text rest valid ends
  obtain ⟨c, more, same, first, _⟩ := valid
  exact takes_token rest rule _ text c more same (name_solid c (startInName c first)) reads

theorem takes_identifier (text : String) (valid : IsIdentifier text) (breaks : Breaks rest) :
    identifier.Takes (text.toList ++ rest) text rest :=
  takes_spelled rest .identifier _ _ text valid start_in_name breaks

theorem takes_opcode (text : String) (valid : IsOpcode text) (ends : ∀ c ∈ rest.head?, isOpcodeChar c = false) :
    opcode.Takes (text.toList ++ rest) text rest :=
  takes_spelled rest .opcode _ _ text valid lower_in_name ends

theorem takes_sigil (rule : Rule) (sigil : Char) (solid : isBlank sigil = false) (text : String) (valid : IsName text)
    (breaks : Breaks rest) : (token rule (sigilName sigil)).Takes (sigil :: (text.toList ++ rest)) text rest := by
  obtain ⟨c, more, same, first, all⟩ := valid
  have name : ∀ d ∈ text.toList, isNameChar d = true := by
    rw [same]
    exact List.forall_mem_cons.mpr ⟨first, all⟩
  have filled : text.toList ≠ [] := by simp [same]
  apply Takes.named
  apply Takes.of_read
  rw [skip_solid sigil _ solid]
  simp only [ofScanner, sigilName, if_true, one_or_more_reads isNameChar text.toList rest filled name breaks,
    Option.map_some, String.ofList_toList]

theorem takes_local (text : String) (valid : IsName text) (breaks : Breaks rest) :
    localName.Takes ('%' :: (text.toList ++ rest)) text rest := takes_sigil rest .localName '%' rfl text valid breaks

theorem takes_global (text : String) (valid : IsName text) (breaks : Breaks rest) :
    globalName.Takes ('@' :: (text.toList ++ rest)) text rest := takes_sigil rest .globalName '@' rfl text valid breaks

theorem number_head (text : String) (valid : IsNumber text) :
    ∃ c more, text.toList = c :: more ∧ (c == '-' || c.isDigit) = true := by
  obtain ⟨minus, whole, part, power, same, isMinus, ⟨filled, all⟩, _⟩ := valid
  rcases isMinus with rfl | rfl
  · cases whole with
    | nil => contradiction
    | cons c more =>
        refine ⟨c, more ++ part ++ power, by simpa using same, ?_⟩
        rw [all c List.mem_cons_self, Bool.or_true]
  · exact ⟨'-', whole ++ part ++ power, by simpa using same, rfl⟩

theorem number_solid (c : Char) (opens : (c == '-' || c.isDigit) = true) : isBlank c = false := by
  rcases Bool.or_eq_true_iff.mp opens with minus | digit
  · rw [eq_of_beq minus]
    rfl
  · exact name_solid c (digit_in_name c digit)

theorem takes_word (rule : Rule) (words : List String) (extends? : Char → Bool) (word : String) (member : word ∈ words)
    (apart : ∀ one ∈ words, ∀ other ∈ words, other ≠ one → clash other.toList one.toList = true)
    (heads : ∀ one ∈ words, ∃ c more, one.toList = c :: more ∧ isNameChar c = true)
    (inName : ∀ c, extends? c = true → isNameChar c = true) (breaks : Breaks rest) :
    (token rule (wordOf words extends?)).Takes (word.toList ++ rest) word rest := by
  obtain ⟨c, more, same, name⟩ := heads word member
  exact takes_token rest rule _ word c more same (name_solid c name)
    (word_of_reads words extends? word rest member (apart word member) (breaks_member extends? inName rest breaks))

theorem takes_keyword (word : String) (valid : IsKeyword word) (breaks : Breaks rest) :
    keyword.Takes (word.toList ++ rest) word rest := by
  apply takes_word rest .keyword _ _ word valid (by decide) _ _ breaks
  · simp [isNameChar]
  · intro c goesOn
    rcases Bool.or_eq_true_iff.mp goesOn with letter | line
    · exact letter_in_name c letter
    · simp [isNameChar, line]

theorem takes_number (text : String) (valid : IsNumber text) (breaks : Breaks rest) :
    number.Takes (text.toList ++ rest) text rest := by
  obtain ⟨c, more, same, opens⟩ := number_head text valid
  exact takes_token rest .number _ text c more same (number_solid c opens) (number_reads text rest valid breaks)

end

theorem leads_sign (text : String) (c : Char) (more : Chars) (same : text.toList = c :: more) :
    (sign text).Leads (· == c) := by
  refine ⟨by simp [sign, literal, same, dropLiteral], ?_⟩
  intro d rest other
  have differs : c ≠ d := fun here => by simp [here] at other
  simp [sign, literal, same, dropLiteral, differs]

theorem leads_token (rule : Rule) (scan : Scanner) (first : Char → Bool) (atEnd : scan [] = none)
    (fails : ∀ c rest, first c = false → scan (c :: rest) = none) : (token rule scan).Leads first := by
  refine ⟨?_, ?_⟩
  · simp only [token, Matcher.named, ofScanner, atEnd, Option.map_none]
  · intro c rest other
    simp only [token, Matcher.named, ofScanner, fails c rest other, Option.map_none]

theorem leads_sigil (rule : Rule) (sigil : Char) : (token rule (sigilName sigil)).Leads (· == sigil) := by
  apply leads_token
  · rfl
  · intro c rest other
    have differs : c ≠ sigil := by simpa using other
    rw [sigilName, if_neg differs]

theorem leads_words (rule : Rule) (words : List String) (extends? : Char → Bool) (nonempty : ∀ word ∈ words, word.toList ≠ []) :
    (token rule (wordOf words extends?)).Leads fun c => words.any fun word => word.toList.head? == some c := by
  apply leads_token
  · apply List.findSome?_eq_none_iff.mpr
    intro word member
    cases here : word.toList with
    | nil => exact absurd here (nonempty word member)
    | cons l more => rfl
  · intro c rest other
    apply List.findSome?_eq_none_iff.mpr
    intro word member
    cases here : word.toList with
    | nil => exact absurd here (nonempty word member)
    | cons l more =>
        have differs : l ≠ c := by simpa [here] using List.any_eq_false.mp other word member
        simp only [dropLiteral, if_neg differs]

theorem leads_number : number.Leads fun c => c == '-' || c.isDigit := by
  apply leads_token
  · rfl
  · intro c rest other
    obtain ⟨noMinus, noDigit⟩ := Bool.or_eq_false_iff.mp other
    have unsigned : minusSign (c :: rest) = ([], c :: rest) := minus_reads [] (c :: rest) (.inl rfl) fun d here => by
      cases here
      simpa using noMinus
    simp [Text.number, unsigned, oneOrMore, noDigit]

theorem leads_int : intType.Leads (· == 'i') := by
  apply Leads.map
  apply leads_token
  · rfl
  · intro c rest other
    unfold intWord
    split
    · rename_i same
      rw [(List.cons.inj same).1] at other
      cases other
    · rfl

def opensType (c : Char) : Bool := ['<', 'p', 'v', 'h', 'f', 'd', 'i'].contains c

def opensConstant (c : Char) : Bool := ['-', 't', 'f', 'n', 'u', 'z'].contains c || c.isDigit

def opensValue (c : Char) : Bool := ['%', '@'].contains c || opensConstant c

def opensOperand (c : Char) : Bool := ['l', '['].contains c || opensValue c

theorem leads_vector (element : Part WrittenType) : (vectorType element).Leads (· == '<') :=
  ((((leads_sign "<" '<' [] rfl).keepRight _).andThen _).map _).named

theorem leads_ptr : ptrType.Leads (· == 'p') := by
  apply Leads.mono ((leads_words .ptrType ["ptr"] Char.isAlphanum (by decide)).map _)
  intro c other
  simp at other ⊢
  simp [other, eq_comm]

theorem leads_void : voidType.Leads (· == 'v') := by
  apply Leads.mono ((leads_words .voidType ["void"] Char.isAlphanum (by decide)).map _)
  intro c other
  simp at other ⊢
  simp [other, eq_comm]

theorem leads_float : floatType.Leads (['h', 'f', 'd'].contains ·) := by
  apply Leads.mono ((leads_words .floatType ["half", "float", "double", "fp128"] Char.isAlphanum (by decide)).map _)
  intro c other
  simp at other ⊢
  simp [other, eq_comm]

theorem leads_type_step (element : Part WrittenType) : (typeStep element).Leads opensType := by
  apply Leads.mono (((leads_vector element).orElse
    (leads_ptr.orElse (leads_void.orElse (leads_float.orElse leads_int)))).named)
  intro c other
  simp [opensType] at other ⊢
  simp [other]

theorem leads_levels (levels : Nat) : (level typeStep levels).Leads opensType := by
  cases levels with
  | zero => exact ⟨rfl, fun _ _ _ => rfl⟩
  | succ fewer => exact leads_type_step (level typeStep fewer)

theorem leads_type : type.Leads opensType := by
  refine ⟨(leads_levels 1).1, ?_⟩
  intro c rest other
  exact (leads_levels ((c :: rest).length + 1)).2 c rest other

theorem leads_value : value.Leads opensValue := by
  have words : keyword.Leads _ := leads_words .keyword
    ["true", "false", "null", "undef", "zeroinitializer"] (fun c => c.isAlphanum || c == '_') (by decide)
  have constants : constant.Leads _ := (leads_number.orElse words).named
  have locals : localName.Leads _ := leads_sigil .localName '%'
  have globals : globalName.Leads _ := leads_sigil .globalName '@'
  apply Leads.mono (((locals.map _).orElse ((globals.map _).orElse (constants.map _))).named)
  intro c other
  simp [opensValue, opensConstant] at other ⊢
  simp [other, eq_comm]

theorem leads_label : labelRef.Leads (· == 'l') := (((leads_sign "label" 'l' _ rfl).keepRight _).map _).named

theorem leads_incoming : incoming.Leads (· == '[') :=
  ((((leads_sign "[" '[' _ rfl).keepRight _).andThen _).map _).named

theorem leads_operand : operand.Leads opensOperand := by
  apply Leads.mono ((leads_label.orElse (leads_incoming.orElse (leads_value.map _))).named)
  intro c other
  simp [opensOperand] at other ⊢
  simp [other]

theorem opens_value_operand (c : Char) (opens : opensValue c = true) : opensOperand c = true := by
  rw [opensOperand, opens, Bool.or_true]

theorem opens_constant_value (c : Char) (opens : opensConstant c = true) : opensValue c = true := by
  rw [opensValue, opens, Bool.or_true]

theorem constant_head (text : String) (valid : IsNumber text ∨ IsKeyword text) :
    ∃ c more, text.toList = c :: more ∧ opensConstant c = true := by
  rcases valid with number | word
  · obtain ⟨c, more, same, opens⟩ := number_head text number
    refine ⟨c, more, same, ?_⟩
    rcases Bool.or_eq_true_iff.mp opens with minus | digit
    · rw [eq_of_beq minus]
      rfl
    · rw [opensConstant, digit, Bool.or_true]
  · have heads : ∀ word ∈ ["true", "false", "null", "undef", "zeroinitializer"],
        ∃ c more, word.toList = c :: more ∧ opensConstant c = true := by simp [opensConstant]
    exact heads text word

theorem value_head (value : WrittenValue) (valid : Source.IsValue value) :
    ∃ c more, value.spelling.toList = c :: more ∧ opensValue c = true := by
  cases value with
  | name text => exact ⟨'%', text.toList, by simp [WrittenValue.spelling], rfl⟩
  | global text => exact ⟨'@', text.toList, by simp [WrittenValue.spelling], rfl⟩
  | constant text =>
      obtain ⟨c, more, same, opens⟩ := constant_head text valid
      exact ⟨c, more, same, opens_constant_value c opens⟩

theorem opens_operand_solid (c : Char) (opens : opensOperand c = true) : isBlank c = false := by
  rw [Bool.eq_false_iff]
  intro blank
  simp only [isBlank, Bool.or_eq_true, beq_iff_eq] at blank
  rcases blank with (rfl | rfl) | rfl <;> revert opens <;> decide

section

variable (rest : Chars) (breaks : Breaks rest)

include breaks

theorem takes_constant (text : String) (valid : IsNumber text ∨ IsKeyword text) :
    constant.Takes (text.toList ++ rest) text rest := by
  apply Takes.named
  rcases valid with number | word
  · exact (takes_number rest text number breaks).orElse _
  · have heads : ∀ word ∈ ["true", "false", "null", "undef", "zeroinitializer"],
        ∃ c more, word.toList = c :: more ∧ (c == '-' || c.isDigit) = false := by simp
    obtain ⟨c, more, same, other⟩ := heads text word
    have missed : number.Misses (text.toList ++ rest) := by
      have solid : isBlank c = false := by
        obtain ⟨d, _, again, opens⟩ := constant_head text (.inr word)
        rw [(List.cons.inj (same.symm.trans again)).1]
        exact opens_operand_solid d (opens_value_operand d (opens_constant_value d opens))
      rw [same]
      exact leads_number.misses c _ solid other
    exact missed.orElse_takes (takes_keyword rest text word breaks)

theorem takes_value (value : WrittenValue) (valid : Source.IsValue value) :
    Grammar.value.Takes (value.spelling.toList ++ rest) value rest := by
  apply Takes.named
  cases value with
  | name text =>
      have chars : (WrittenValue.name text).spelling.toList = '%' :: text.toList := by simp [WrittenValue.spelling]
      rw [chars]
      exact ((takes_local rest text valid breaks).map _).orElse _
  | global text =>
      have chars : (WrittenValue.global text).spelling.toList = '@' :: text.toList := by simp [WrittenValue.spelling]
      have noLocal : localName.Misses ('@' :: text.toList ++ rest) :=
        (leads_sigil .localName '%').misses '@' _ rfl rfl
      rw [chars]
      exact (noLocal.map _).orElse_takes (((takes_global rest text valid breaks).map _).orElse _)
  | constant text =>
      obtain ⟨c, more, same, opens⟩ := constant_head text valid
      have solid := opens_operand_solid c (opens_value_operand c (opens_constant_value c opens))
      have noSigil : ∀ rule sigil, opensConstant sigil = false →
          (token rule (sigilName sigil)).Misses (text.toList ++ rest) := by
        intro rule sigil outside
        rw [same]
        apply (leads_sigil rule sigil).misses c _ solid
        simpa using class_ne c opensConstant opens sigil outside
      exact ((noSigil .localName '%' rfl).map _).orElse_takes
        (((noSigil .globalName '@' rfl).map _).orElse_takes ((takes_constant rest breaks text valid).map _))

theorem takes_operand (written : WrittenOperand) (valid : Source.IsOperand written) :
    operand.Takes ((Source.operandText written).toList ++ rest) written rest := by
  apply Takes.named
  cases written with
  | value value =>
      obtain ⟨c, more, same, opens⟩ := value_head value valid
      have solid := opens_operand_solid c (opens_value_operand c opens)
      have noLabel : labelRef.Misses (value.spelling.toList ++ rest) := by
        rw [same]
        exact leads_label.misses c _ solid (by simpa using class_ne c opensValue opens 'l' rfl)
      have noIncoming : incoming.Misses (value.spelling.toList ++ rest) := by
        rw [same]
        exact leads_incoming.misses c _ solid (by simpa using class_ne c opensValue opens '[' rfl)
      exact noLabel.orElse_takes (noIncoming.orElse_takes ((takes_value rest breaks value valid).map _))
  | incoming value block =>
      have chars : (Source.operandText (.incoming value block)).toList ++ rest =
          '[' :: (value.spelling.toList ++ ',' :: ' ' :: '%' :: (block.toList ++ ']' :: rest)) := by
        simp [Source.operandText]
      have noLabel : labelRef.Misses ('[' :: (value.spelling.toList ++ ',' :: ' ' :: '%' :: (block.toList ++ ']' :: rest))) :=
        leads_label.misses '[' _ rfl rfl
      have opening : ∀ s, (sign "[").Takes ('[' :: s) () s := fun s => .of_read rfl
      have comma : ∀ s, (sign ",").Takes (',' :: s) () s := fun s => .of_read rfl
      have closing : (sign "]").Takes (']' :: rest) () rest := .of_read rfl
      have first := takes_value (',' :: ' ' :: '%' :: (block.toList ++ ']' :: rest)) (breaks_cons ',' _ rfl) value valid.1
      have second := takes_local (']' :: rest) block valid.2 (breaks_cons ']' _ rfl)
      rw [chars]
      apply noLabel.orElse_takes
      have parts := ((opening _).keepRight (first.keepLeft (comma _))).andThen (second.space.keepLeft closing)
      exact (parts.map _).named.orElse _
  | label block =>
      have chars : (Source.operandText (.label block)).toList ++ rest =
          "label".toList ++ ' ' :: '%' :: (block.toList ++ rest) := by simp [Source.operandText]
      have word : (sign "label").Takes ("label".toList ++ ' ' :: '%' :: (block.toList ++ rest)) ()
          (' ' :: '%' :: (block.toList ++ rest)) := .of_read rfl
      rw [chars]
      exact ((word.keepRight (takes_local rest block valid breaks).space).map _).named.orElse _

end

theorem digits_of_nat (n : Nat) : IsDigits (toString n).toList :=
  ⟨Output.digits_of_filled n, Output.digit_of_mem n⟩

theorem number_of_nat (n : Nat) : IsNumber (toString n) :=
  ⟨[], (toString n).toList, [], [], by simp, .inl rfl, digits_of_nat n, .inl rfl, .inl rfl⟩

section

variable (element : Part WrittenType) (rest : Chars) (breaks : Breaks rest)

include breaks

theorem takes_ptr : (typeStep element).Takes ("ptr".toList ++ rest) .ptr rest := by
  have word : ptrType.Takes ("ptr".toList ++ rest) .ptr rest := (takes_word rest .ptrType ["ptr"] Char.isAlphanum "ptr"
    (by simp) (by decide) (by simp [isNameChar]) letter_in_name breaks).map _
  have noVector := (leads_vector element).misses 'p' ('t' :: 'r' :: rest) rfl rfl
  exact (noVector.orElse_takes (word.orElse _)).named

theorem takes_void : (typeStep element).Takes ("void".toList ++ rest) .void rest := by
  have word : voidType.Takes ("void".toList ++ rest) .void rest := (takes_word rest .voidType ["void"] Char.isAlphanum
    "void" (by simp) (by decide) (by simp [isNameChar]) letter_in_name breaks).map _
  have noVector := (leads_vector element).misses 'v' ('o' :: 'i' :: 'd' :: rest) rfl rfl
  have noPtr := leads_ptr.misses 'v' ('o' :: 'i' :: 'd' :: rest) rfl rfl
  exact (noVector.orElse_takes (noPtr.orElse_takes (word.orElse _))).named

theorem takes_float (word : String) (member : word ∈ ["half", "float", "double", "fp128"]) :
    (typeStep element).Takes (word.toList ++ rest) (floatTypeOf word) rest := by
  have heads : ∀ word ∈ ["half", "float", "double", "fp128"],
      ∃ c more, word.toList = c :: more ∧ ['h', 'f', 'd'].contains c = true := by simp
  have taken : floatType.Takes (word.toList ++ rest) (floatTypeOf word) rest :=
    (takes_word rest .floatType ["half", "float", "double", "fp128"] Char.isAlphanum word member (by decide)
      (by simp [isNameChar]) letter_in_name breaks).map floatTypeOf
  obtain ⟨c, more, same, opens⟩ := heads word member
  have solid : isBlank c = false := by
    rw [Bool.eq_false_iff]
    intro blank
    exact Bool.false_ne_true ((class_apart c isBlank blank ['h', 'f', 'd'] rfl).symm.trans opens)
  have other : ∀ d, ['h', 'f', 'd'].contains d = false → (c == d) = false := fun d outside => by
    simpa using class_ne c (['h', 'f', 'd'].contains ·) opens d outside
  have noVector := (leads_vector element).misses c (more ++ rest) solid (other '<' rfl)
  have noPtr := leads_ptr.misses c (more ++ rest) solid (other 'p' rfl)
  have noVoid := leads_void.misses c (more ++ rest) solid (other 'v' rfl)
  rw [← List.cons_append, ← same] at noVector noPtr noVoid
  exact (noVector.orElse_takes (noPtr.orElse_takes (noVoid.orElse_takes (taken.orElse _)))).named

theorem takes_int (bits : Nat) :
    (typeStep element).Takes ('i' :: ((toString bits).toList ++ rest)) (.int (toString bits)) rest := by
  have reads : intWord ('i' :: ((toString bits).toList ++ rest)) = some ((toString bits).toList, rest) :=
    digits_read _ rest (digits_of_nat bits) (breaks_member Char.isDigit digit_in_name rest breaks)
  have word : (token .intType intWord).Takes ('i' :: ((toString bits).toList ++ rest)) (toString bits) rest := by
    apply Takes.named
    apply Takes.of_read
    rw [skip_solid 'i' _ rfl]
    simp only [ofScanner, reads, Option.map_some, String.ofList_toList]
  have noVector := (leads_vector element).misses 'i' ((toString bits).toList ++ rest) rfl rfl
  have noPtr := leads_ptr.misses 'i' ((toString bits).toList ++ rest) rfl rfl
  have noVoid := leads_void.misses 'i' ((toString bits).toList ++ rest) rfl rfl
  have noFloat := leads_float.misses 'i' ((toString bits).toList ++ rest) rfl rfl
  have taken : intType.Takes ('i' :: ((toString bits).toList ++ rest)) (.int (toString bits)) rest :=
    word.map WrittenType.int
  exact (noVector.orElse_takes (noPtr.orElse_takes (noVoid.orElse_takes (noFloat.orElse_takes taken)))).named

end

theorem takes_vector (element : Part WrittenType) (length : Nat) (text : Chars) (inner : WrittenType) (rest : Chars)
    (takes : ∀ after, Breaks after → element.Takes (text ++ after) inner after) :
    (typeStep element).Takes ('<' :: ((toString length).toList ++ ' ' :: 'x' :: ' ' :: (text ++ '>' :: rest)))
      (.vector (toString length) inner) rest := by
  have opening : ∀ s, (sign "<").Takes ('<' :: s) () s := fun s => .of_read rfl
  have count := takes_number (' ' :: 'x' :: ' ' :: (text ++ '>' :: rest)) (toString length) (number_of_nat length)
    (breaks_cons ' ' _ rfl)
  have times : ∀ s, (sign "x").Takes (' ' :: 'x' :: s) () s := fun s => .of_read rfl
  have closing : (sign ">").Takes ('>' :: rest) () rest := .of_read rfl
  have middle := takes ('>' :: rest) (breaks_cons '>' _ rfl)
  have parts := ((opening _).keepRight (count.keepLeft (times _))).andThen (middle.space.keepLeft closing)
  exact ((parts.map _).named.orElse _).named

theorem vector_chars (length : Nat) (element : Ty) (rest : Chars) :
    (Ty.vector length element).text.toList ++ rest =
      '<' :: ((toString length).toList ++ ' ' :: 'x' :: ' ' :: (element.text.toList ++ '>' :: rest)) := by
  simp [Ty.text]

-- A type of so many characters is read within as many levels.
theorem takes_type_within (ty : Ty) (levels : Nat) (enough : ty.text.toList.length ≤ levels + 1) (rest : Chars)
    (breaks : Breaks rest) : (level typeStep (levels + 1)).Takes (ty.text.toList ++ rest) ty.written rest := by
  induction ty generalizing levels rest with
  | void => exact takes_void _ rest breaks
  | ptr => exact takes_ptr _ rest breaks
  | half => exact takes_float _ rest breaks "half" (by simp)
  | float => exact takes_float _ rest breaks "float" (by simp)
  | double => exact takes_float _ rest breaks "double" (by simp)
  | fp128 => exact takes_float _ rest breaks "fp128" (by simp)
  | int bits =>
      have chars : (Ty.int bits).text.toList = 'i' :: (toString bits).toList := by simp [Ty.text]
      rw [chars]
      exact takes_int _ rest breaks bits
  | vector length element ih =>
      have size := congrArg List.length (vector_chars length element [])
      simp only [List.append_nil, List.length_cons, List.length_append, List.length_nil] at size
      cases levels with
      | zero => omega
      | succ fewer =>
          rw [vector_chars]
          exact takes_vector _ length element.text.toList element.written rest (ih fewer (by omega))

theorem type_head (ty : Ty) : ∃ c more, ty.text.toList = c :: more ∧ isBlank c = false := by
  cases ty with
  | int bits => exact ⟨'i', (toString bits).toList, by simp [Ty.text], rfl⟩
  | vector length element =>
      have chars := vector_chars length element []
      rw [List.append_nil] at chars
      exact ⟨'<', _, chars, rfl⟩
  | _ => exact ⟨_, _, rfl, rfl⟩

theorem takes_type (ty : Ty) (rest : Chars) (breaks : Breaks rest) :
    type.Takes (ty.text.toList ++ rest) ty.written rest := by
  apply Takes.nested
  apply takes_type_within ty _ _ rest breaks
  obtain ⟨c, more, same, solid⟩ := type_head ty
  rw [same, List.cons_append, skip_solid c _ solid, List.length_cons, List.length_cons, List.length_append]
  omega

theorem number_no_type (c : Char) (opens : (c == '-' || c.isDigit) = true) : opensType c = false :=
  class_apart c (fun d => d == '-' || d.isDigit) opens _ rfl

-- One constant starts as a type does.
theorem operand_head (written : WrittenOperand) (valid : Source.IsOperand written) :
    ∃ c more, (Source.operandText written).toList = c :: more ∧ opensOperand c = true ∧
      (opensType c = false ∨ Source.operandText written = "false") := by
  cases written with
  | incoming value block =>
      exact ⟨'[', value.spelling.toList ++ ", %".toList ++ block.toList ++ "]".toList, by simp [Source.operandText],
        rfl, .inl rfl⟩
  | label block => exact ⟨'l', "abel %".toList ++ block.toList, by simp [Source.operandText], rfl, .inl rfl⟩
  | value value =>
      cases value with
      | name text => exact ⟨'%', text.toList, by simp [Source.operandText, WrittenValue.spelling], rfl, .inl rfl⟩
      | global text => exact ⟨'@', text.toList, by simp [Source.operandText, WrittenValue.spelling], rfl, .inl rfl⟩
      | constant text =>
          obtain ⟨c, more, same, opens⟩ := constant_head text valid
          refine ⟨c, more, same, opens_value_operand c (opens_constant_value c opens), ?_⟩
          rcases valid with number | word
          · obtain ⟨d, _, again, opensNumber⟩ := number_head text number
            rw [(List.cons.inj (same.symm.trans again)).1]
            exact .inl (number_no_type d opensNumber)
          · have heads : ∀ word ∈ ["true", "false", "null", "undef", "zeroinitializer"],
                word.toList.head?.any opensType = false ∨ word = "false" := by decide
            rcases heads text word with other | rfl
            · rw [same] at other
              exact .inl other
            · exact .inr rfl

theorem type_misses_false (rest : Chars) : type.Misses ("false".toList ++ rest) := by
  have clashes : ∀ word ∈ ["half", "float", "double", "fp128"], clash word.toList "false".toList = true := by decide
  have noWord : floatWord ("false".toList ++ rest) = none := by
    apply List.findSome?_eq_none_iff.mpr
    intro word member
    rw [drop_literal_clash word.toList "false".toList rest (clashes word member)]
  have noFloat : floatType.Misses ("false".toList ++ rest) := by
    apply Misses.map
    apply Misses.named
    have read : skip ("false".toList ++ rest) = "false".toList ++ rest := rfl
    constructor
    simp only [ofScanner, read, noWord, Option.map_none]
  apply Misses.nested
  have noVector := (leads_vector (level typeStep (skip ("false".toList ++ rest)).length)).misses 'f'
    ('a' :: 'l' :: 's' :: 'e' :: rest) rfl rfl
  have noPtr := leads_ptr.misses 'f' ('a' :: 'l' :: 's' :: 'e' :: rest) rfl rfl
  have noVoid := leads_void.misses 'f' ('a' :: 'l' :: 's' :: 'e' :: rest) rfl rfl
  have noInt := leads_int.misses 'f' ('a' :: 'l' :: 's' :: 'e' :: rest) rfl rfl
  exact (noVector.orElse (noPtr.orElse (noVoid.orElse (noFloat.orElse noInt)))).named

-- No operand is taken for a type.
theorem type_misses_operand (written : WrittenOperand) (valid : Source.IsOperand written) (rest : Chars) :
    type.Misses ((Source.operandText written).toList ++ rest) := by
  obtain ⟨c, more, same, opens, noType | word⟩ := operand_head written valid
  · rw [same]
    exact leads_type.misses c _ (opens_operand_solid c opens) noType
  · rw [word]
    exact type_misses_false rest

-- One or more items with commas in between.
theorem takes_listed {α β : Type} (item : Part α) (write : β → String) (value : β → α) (first : β) (others : List β)
    (each : ∀ one ∈ first :: others, ∀ rest, Breaks rest → item.Takes ((write one).toList ++ rest) (value one) rest)
    (rest : Chars) (breaks : Breaks rest) (stops : (sign ",").Misses rest) :
    (commaSeparated item).Takes ((Source.listed ((first :: others).map write)).toList ++ rest)
      ((first :: others).map value) rest := by
  have comma : ∀ s, (sign ",").Takes (',' :: s) () s := fun s => .of_read rfl
  have series : Series ((sign ",").keepRight item) (fun one => ',' :: ' ' :: (write one).toList) value Breaks others := by
    refine ⟨?_, ?_, ?_⟩
    · intro one member after breaksAfter
      exact (comma _).keepRight (each one (List.mem_cons_of_mem _ member) after breaksAfter).space
    · exact fun one _ after => breaks_cons ',' _ rfl
    · exact fun one _ after => skip_shorter ',' rfl _ after
  have chars : (Source.listed ((first :: others).map write)).toList ++ rest =
      (write first).toList ++ ((others.flatMap fun one => ',' :: ' ' :: (write one).toList) ++ rest) := by
    rw [List.map_cons, Source.listed_chars, List.flatMap_map, List.append_assoc]
  rw [chars]
  have head := each first List.mem_cons_self _ (series.fits_all rest breaks)
  exact (head.andThen (series.many rest breaks (stops.keepRight item))).map _

end LoopDeps.Text.Grammar
