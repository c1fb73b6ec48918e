import LoopDeps.Text.Grammar
import LoopDeps.Proofs.Text.Matching
set_option autoImplicit false

/- Which texts are names, opcodes, numbers and words, and that each is read as a whole in front of a character that
   cannot go on with it. -/
namespace LoopDeps.Text

open Grammar

def Spelled (start member : Char → Bool) (text : String) : Prop :=
  ∃ c more, text.toList = c :: more ∧ start c = true ∧ ∀ d ∈ more, member d = true

theorem spelled_iff (start member : Char → Bool) (text : String) :
    Spelled start member text ↔ text.toList.head?.any start = true ∧ text.toList.tail.all member = true := by
  unfold Spelled
  cases text.toList with
  | nil => simp
  | cons c more =>
      constructor
      · rintro ⟨_, _, same, first, all⟩
        cases same
        exact ⟨first, List.all_eq_true.mpr all⟩
      · rintro ⟨first, all⟩
        exact ⟨c, more, rfl, first, List.all_eq_true.mp all⟩

instance (start member : Char → Bool) (text : String) : Decidable (Spelled start member text) :=
  decidable_of_iff _ (spelled_iff start member text).symm

-- The name of a value, a function or a global, without its sigil.
abbrev IsName (text : String) : Prop := Spelled isNameChar isNameChar text

abbrev IsIdentifier (text : String) : Prop := Spelled isNameStart isNameChar text

abbrev IsOpcode (text : String) : Prop := Spelled Char.isLower isOpcodeChar text

abbrev IsKeyword (text : String) : Prop := text ∈ ["true", "false", "null", "undef", "zeroinitializer"]

def IsDigits (digits : Chars) : Prop := digits ≠ [] ∧ ∀ c ∈ digits, c.isDigit = true

def IsMinus (text : Chars) : Prop := text = [] ∨ text = ['-']

def IsFraction (text : Chars) : Prop := text = [] ∨ ∃ digits, text = '.' :: digits ∧ IsDigits digits

def IsExponent (text : Chars) : Prop :=
  text = [] ∨ ∃ letter sign digits, text = letter :: (sign ++ digits) ∧ (letter = 'e' ∨ letter = 'E') ∧
    (sign = [] ∨ sign = ['+'] ∨ sign = ['-']) ∧ IsDigits digits

def IsNumber (text : String) : Prop :=
  ∃ minus whole fraction exponent, text.toList = minus ++ whole ++ fraction ++ exponent ∧
    IsMinus minus ∧ IsDigits whole ∧ IsFraction fraction ∧ IsExponent exponent

-- Nothing that goes on with a lexeme.
def Breaks (rest : Chars) : Prop := ∀ c ∈ rest.head?, isNameChar c = false

theorem breaks_cons (c : Char) (rest : Chars) (breaks : isNameChar c = false) : Breaks (c :: rest) := by
  intro d here
  cases here
  exact breaks

section

variable (c : Char)

theorem digit_in_name (digit : c.isDigit = true) : isNameChar c = true := by simp [isNameChar, Char.isAlphanum, digit]

theorem letter_in_name (letter : c.isAlphanum = true) : isNameChar c = true := by simp [isNameChar, letter]

theorem start_in_name (start : isNameStart c = true) : isNameChar c = true := by
  simp only [isNameStart, isNameChar, Char.isAlphanum, Bool.or_eq_true] at start ⊢
  rcases start with (letter | line) | point
  · exact .inl (.inl (.inl letter))
  · exact .inl (.inr line)
  · exact .inr point

theorem lower_in_name (lower : c.isLower = true) : isNameChar c = true := by
  have letter : c.isAlpha = true := Bool.or_eq_true_iff.mpr (.inr lower)
  exact letter_in_name c (Bool.or_eq_true_iff.mpr (.inl letter))

theorem opcode_in_name (member : isOpcodeChar c = true) : isNameChar c = true := by
  simp only [isOpcodeChar, Bool.or_eq_true] at member
  rcases member with (lower | digit) | line
  · exact lower_in_name c lower
  · exact digit_in_name c digit
  · simp [isNameChar, line]

theorem name_solid (member : isNameChar c = true) : isBlank c = false := by
  rw [Bool.eq_false_iff]
  intro blank
  simp only [isBlank, Bool.or_eq_true, beq_iff_eq] at blank
  rcases blank with (rfl | rfl) | rfl <;> revert member <;> decide

theorem class_apart (member : Char → Bool) (inside : member c = true) (chars : Chars) (apart : chars.any member = false) :
    chars.contains c = false := by
  rw [Bool.eq_false_iff]
  intro listed
  have met : chars.any member = true := List.any_eq_true.mpr ⟨c, List.contains_iff_mem.mp listed, inside⟩
  exact Bool.false_ne_true (apart.symm.trans met)

theorem class_ne (member : Char → Bool) (inside : member c = true) (other : Char) (outside : member other = false) :
    c ≠ other := by
  rintro rfl
  exact Bool.false_ne_true (outside.symm.trans inside)

end

theorem breaks_member (member : Char → Bool) (inName : ∀ c, member c = true → isNameChar c = true) (rest : Chars)
    (breaks : Breaks rest) : ∀ c ∈ rest.head?, member c = false := by
  intro c here
  rw [Bool.eq_false_iff]
  intro goesOn
  have name := inName c goesOn
  exact Bool.false_ne_true ((breaks c here).symm.trans name)

theorem take_while_all (member : Char → Bool) (text rest : Chars) (all : ∀ c ∈ text, member c = true)
    (ends : ∀ c ∈ rest.head?, member c = false) :
    (text ++ rest).takeWhile member = text ∧ (text ++ rest).dropWhile member = rest := by
  have stops : rest.takeWhile member = [] ∧ rest.dropWhile member = rest := by
    cases rest with
    | nil => exact ⟨rfl, rfl⟩
    | cons c more => simp [ends c rfl]
  rw [List.takeWhile_append_of_pos all, List.dropWhile_append_of_pos all, stops.1, stops.2, List.append_nil]
  exact ⟨rfl, rfl⟩

-- Every text is a part of one class and a rest that does not go on with it.
theorem class_splits (member : Char → Bool) (text : Chars) :
    ∃ word left, text = word ++ left ∧ (∀ c ∈ word, member c = true) ∧ ∀ c ∈ left.head?, member c = false := by
  induction text with
  | nil => exact ⟨[], [], rfl, by simp, by simp⟩
  | cons c more ih =>
      cases first : member c with
      | false => exact ⟨[], c :: more, rfl, by simp, by simpa using first⟩
      | true =>
          obtain ⟨word, left, rfl, all, stops⟩ := ih
          exact ⟨c :: word, left, rfl, List.forall_mem_cons.mpr ⟨first, all⟩, stops⟩

theorem one_or_more_reads (member : Char → Bool) (text rest : Chars) (filled : text ≠ []) (all : ∀ c ∈ text, member c = true)
    (ends : ∀ c ∈ rest.head?, member c = false) : oneOrMore member (text ++ rest) = some (text, rest) := by
  obtain ⟨taken, left⟩ := take_while_all member text rest all ends
  unfold oneOrMore
  rw [taken, left]
  split
  · contradiction
  · rfl

theorem digits_read (digits rest : Chars) (valid : IsDigits digits) (ends : ∀ c ∈ rest.head?, c.isDigit = false) :
    oneOrMore Char.isDigit (digits ++ rest) = some (digits, rest) :=
  one_or_more_reads Char.isDigit digits rest valid.1 valid.2 ends

theorem start_then_reads (start member : Char → Bool) (text : String) (rest : Chars) (valid : Spelled start member text)
    (ends : ∀ c ∈ rest.head?, member c = false) :
    startThen start member (text.toList ++ rest) = some (text.toList, rest) := by
  obtain ⟨c, more, same, first, all⟩ := valid
  obtain ⟨taken, left⟩ := take_while_all member more rest all ends
  rw [same, List.cons_append, startThen, if_pos first, taken, left]

theorem drop_literal_append (literal rest : Chars) : dropLiteral literal (literal ++ rest) = some rest := by
  induction literal with
  | nil => rfl
  | cons l literal ih => simpa [dropLiteral] using ih

theorem minus_reads (minus rest : Chars) (valid : IsMinus minus) (other : ∀ c ∈ rest.head?, c ≠ '-') :
    minusSign (minus ++ rest) = (minus, rest) := by
  rcases valid with rfl | rfl
  · rw [List.nil_append]
    unfold minusSign
    split
    · exact absurd rfl (other '-' rfl)
    · rfl
  · rfl

theorem digits_head (digits rest : Chars) (valid : IsDigits digits) (other : Char) (no : other.isDigit = false) :
    ∀ c ∈ (digits ++ rest).head?, c ≠ other := by
  obtain ⟨filled, all⟩ := valid
  cases digits with
  | nil => contradiction
  | cons d more =>
      intro c here
      cases here
      exact class_ne d Char.isDigit (all d List.mem_cons_self) other no

theorem any_sign_reads (sign digits rest : Chars) (valid : sign = [] ∨ sign = ['+'] ∨ sign = ['-']) (number : IsDigits digits) :
    anySign (sign ++ (digits ++ rest)) = (sign, digits ++ rest) := by
  rcases valid with rfl | rfl | rfl
  · rw [List.nil_append]
    unfold anySign
    split
    · rename_i here
      exact absurd rfl (digits_head digits rest number '+' rfl '+' (by rw [here]; rfl))
    · exact minus_reads [] _ (.inl rfl) (digits_head digits rest number '-' rfl)
  · rfl
  · rfl

theorem exponent_reads (power rest : Chars) (valid : IsExponent power) (breaks : Breaks rest) :
    exponent (power ++ rest) = (power, rest) := by
  rcases valid with rfl | ⟨letter, sign, digits, rfl, isLetter, isSign, number⟩
  · cases rest with
    | nil => rfl
    | cons c more =>
        have notLetter : ((c == 'e') || (c == 'E')) = false := by
          rw [Bool.eq_false_iff]
          intro letter
          have here := breaks c rfl
          rcases Bool.or_eq_true_iff.mp letter with small | big
          · rw [eq_of_beq small] at here
            cases here
          · rw [eq_of_beq big] at here
            cases here
        simp only [List.nil_append, exponent, notLetter, Bool.false_eq_true, if_false]
  · have opens : (letter == 'e' || letter == 'E') = true := by rcases isLetter with rfl | rfl <;> rfl
    have ends := breaks_member Char.isDigit digit_in_name rest breaks
    simp only [List.cons_append, List.append_assoc, exponent, opens, if_true,
      any_sign_reads sign digits rest isSign number, digits_read digits rest number ends]

theorem fraction_reads (part rest : Chars) (valid : IsFraction part)
    (ends : ∀ c ∈ rest.head?, c.isDigit = false ∧ c ≠ '.') : fraction (part ++ rest) = (part, rest) := by
  rcases valid with rfl | ⟨digits, rfl, number⟩
  · rw [List.nil_append]
    unfold fraction
    split
    · exact absurd rfl (ends '.' rfl).2
    · rfl
  · have stops := digits_read digits rest number fun c here => (ends c here).1
    simp only [List.cons_append, fraction, stops]

theorem number_reads (text : String) (rest : Chars) (valid : IsNumber text) (breaks : Breaks rest) :
    Text.number (text.toList ++ rest) = some (text.toList, rest) := by
  obtain ⟨minus, whole, part, power, same, isMinus, isWhole, isPart, isPower⟩ := valid
  have afterPart : ∀ c ∈ (power ++ rest).head?, c.isDigit = false ∧ c ≠ '.' := by
    rcases isPower with rfl | ⟨letter, sign, digits, rfl, isLetter, _⟩
    · intro c here
      refine ⟨breaks_member Char.isDigit digit_in_name rest breaks c here, ?_⟩
      rintro rfl
      exact Bool.false_ne_true (breaks '.' here).symm
    · intro c here
      cases here
      rcases isLetter with rfl | rfl <;> exact ⟨rfl, by decide⟩
  have afterWhole : ∀ c ∈ (part ++ (power ++ rest)).head?, c.isDigit = false := by
    rcases isPart with rfl | ⟨digits, rfl, _⟩
    · exact fun c here => (afterPart c here).1
    · intro c here
      cases here
      rfl
  have signed := minus_reads minus _ isMinus (digits_head whole (part ++ (power ++ rest)) isWhole '-' rfl)
  simp only [same, List.append_assoc, Text.number, signed, digits_read whole _ isWhole afterWhole,
    fraction_reads part _ isPart afterPart, exponent_reads power rest isPower breaks]

-- What a scanner of numbers takes is a number.
theorem one_or_more_sound (member : Char → Bool) (s text rest : Chars) (reads : oneOrMore member s = some (text, rest)) :
    s = text ++ rest ∧ text ≠ [] ∧ ∀ c ∈ text, member c = true := by
  obtain ⟨word, left, rfl, all, stops⟩ := class_splits member s
  obtain ⟨taken, dropped⟩ := take_while_all member word left all stops
  unfold oneOrMore at reads
  rw [taken, dropped] at reads
  split at reads
  · cases reads
  · rename_i filled
    cases reads
    exact ⟨rfl, filled, all⟩

theorem minus_sound (s : Chars) : s = (minusSign s).1 ++ (minusSign s).2 ∧ IsMinus (minusSign s).1 := by
  unfold minusSign
  split
  · exact ⟨rfl, .inr rfl⟩
  · exact ⟨rfl, .inl rfl⟩

theorem any_sign_sound (s : Chars) :
    s = (anySign s).1 ++ (anySign s).2 ∧ ((anySign s).1 = [] ∨ (anySign s).1 = ['+'] ∨ (anySign s).1 = ['-']) := by
  unfold anySign
  split
  · exact ⟨rfl, .inr (.inl rfl)⟩
  · obtain ⟨split, sign⟩ := minus_sound s
    exact ⟨split, sign.imp_right .inr⟩

theorem fraction_sound (s : Chars) : s = (fraction s).1 ++ (fraction s).2 ∧ IsFraction (fraction s).1 := by
  unfold fraction
  split
  · rename_i after
    cases reads : oneOrMore Char.isDigit after with
    | none => exact ⟨rfl, .inl rfl⟩
    | some found =>
        obtain ⟨split, digits⟩ := one_or_more_sound Char.isDigit after found.1 found.2 reads
        exact ⟨congrArg (List.cons '.') split, .inr ⟨found.1, rfl, digits⟩⟩
  · exact ⟨rfl, .inl rfl⟩

theorem exponent_sound (s : Chars) : s = (exponent s).1 ++ (exponent s).2 ∧ IsExponent (exponent s).1 := by
  cases s with
  | nil => exact ⟨rfl, .inl rfl⟩
  | cons c rest =>
      rw [exponent]
      split
      · rename_i letter
        obtain ⟨signed, sign⟩ := any_sign_sound rest
        cases reads : oneOrMore Char.isDigit (anySign rest).2 with
        | none =>
            simp only [reads]
            exact ⟨rfl, .inl rfl⟩
        | some found =>
            obtain ⟨split, digits⟩ := one_or_more_sound Char.isDigit _ found.1 found.2 reads
            rw [split] at signed
            simp only [reads]
            refine ⟨by simpa using signed, .inr ⟨c, _, found.1, rfl, ?_, sign, digits⟩⟩
            simpa using letter
      · exact ⟨rfl, .inl rfl⟩

theorem number_sound (s text rest : Chars) (reads : Text.number s = some (text, rest)) :
    s = text ++ rest ∧ ∃ minus whole part power, text = minus ++ whole ++ part ++ power ∧
      IsMinus minus ∧ IsDigits whole ∧ IsFraction part ∧ IsExponent power := by
  obtain ⟨signed, minus⟩ := minus_sound s
  unfold Text.number at reads
  dsimp only at reads
  split at reads
  · cases reads
  · rename_i whole after found
    obtain ⟨split, digits⟩ := one_or_more_sound Char.isDigit _ whole after found
    obtain ⟨splitPart, part⟩ := fraction_sound after
    obtain ⟨splitPower, power⟩ := exponent_sound (fraction after).2
    cases reads
    refine ⟨?_, _, whole, _, _, rfl, minus, digits, part, power⟩
    rw [split, splitPart, splitPower] at signed
    simpa using signed

theorem is_number_iff (text : String) : IsNumber text ↔ Text.number text.toList = some (text.toList, []) := by
  constructor
  · intro valid
    have reads := number_reads text [] valid (by simp [Breaks])
    rwa [List.append_nil] at reads
  · intro reads
    exact (number_sound _ _ _ reads).2

instance (text : String) : Decidable (IsNumber text) := decidable_of_iff _ (is_number_iff text).symm

end LoopDeps.Text
