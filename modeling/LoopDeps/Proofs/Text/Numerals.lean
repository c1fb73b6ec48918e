import Mathlib.Algebra.Field.Rat
import Mathlib.Tactic.FieldSimp
import Mathlib.Tactic.Ring
import LoopDeps.Decimal.Read
import LoopDeps.Proofs.Text.Lexing
set_option autoImplicit false

/- The double that a decimal text denotes, told by the sign, the digits and the exponent it is written with. -/
namespace LoopDeps.Text

-- A sign, the digits before and after the point, and a power of ten.
structure Numeral where
  negative : Bool
  whole : Chars
  fraction : Chars
  exponent : Int

namespace Numeral

def natural (digits : Chars) : Nat := Nat.ofDigitChars 10 digits 0

-- Without a point there are no digits behind it.
def SpellsFraction (digits text : Chars) : Prop :=
  (digits = [] ∧ text = []) ∨ (IsDigits digits ∧ text = '.' :: digits)

def SpellsExponent (exponent : Int) (text : Chars) : Prop :=
  (exponent = 0 ∧ text = []) ∨ ∃ letter sign digits, text = letter :: (sign ++ digits) ∧ (letter = 'e' ∨ letter = 'E') ∧
    IsDigits digits ∧
      ((sign = [] ∨ sign = ['+']) ∧ exponent = natural digits ∨ sign = ['-'] ∧ exponent = -(natural digits : Int))

def Spells (n : Numeral) (text : Chars) : Prop :=
  ∃ point power, text = (if n.negative then ['-'] else []) ++ n.whole ++ point ++ power ∧
    IsDigits n.whole ∧ SpellsFraction n.fraction point ∧ SpellsExponent n.exponent power

-- All digits as one number, which is to be taken times a power of ten.
def mantissa (n : Numeral) : Nat := natural (n.whole ++ n.fraction)

def power (n : Numeral) : Int := n.exponent - n.fraction.length

def double (n : Numeral) : Float :=
  let magnitude := Float.ofScientific n.mantissa (n.power < 0) n.power.natAbs
  if n.negative then -magnitude else magnitude

theorem natural_append (front back : Chars) :
    natural (front ++ back) = natural front * 10 ^ back.length + natural back := by
  have shifted (start : Nat) : Nat.ofDigitChars 10 back start = start * 10 ^ back.length + natural back := by
    unfold natural
    induction back generalizing start with
    | nil => simp [Nat.ofDigitChars]
    | cons c rest ih =>
        rw [Nat.ofDigitChars_cons, Nat.ofDigitChars_cons, ih, ih (10 * 0 + _), List.length_cons]
        ring
  rw [natural, Nat.ofDigitChars_append, shifted]
  rfl

-- The whole part and the fraction together, times ten to the exponent.
theorem mantissa_power (n : Numeral) : (n.mantissa : ℚ) * 10 ^ n.power =
    (natural n.whole + natural n.fraction / 10 ^ n.fraction.length) * 10 ^ n.exponent := by
  have ten : (10 : ℚ) ≠ 0 := by norm_num
  rw [mantissa, natural_append, power, zpow_sub₀ ten, zpow_natCast]
  push_cast
  field_simp

theorem digits_first (digits rest : Chars) (isDigits : IsDigits digits) :
    ∃ c more, digits ++ rest = c :: more ∧ c.isDigit = true := by
  obtain ⟨filled, all⟩ := isDigits
  cases digits with
  | nil => exact absurd rfl filled
  | cons c more => exact ⟨c, more ++ rest, rfl, all c List.mem_cons_self⟩

theorem signed_digits (exponent : Int) (sign digits : Chars) (isDigits : IsDigits digits)
    (value : (sign = [] ∨ sign = ['+']) ∧ exponent = natural digits ∨ sign = ['-'] ∧ exponent = -(natural digits : Int)) :
    Decimal.signedDigits (sign ++ digits) = exponent := by
  rcases value with ⟨rfl | rfl, rfl⟩ | ⟨rfl, rfl⟩
  · obtain ⟨c, more, same, digit⟩ := digits_first digits [] isDigits
    rw [List.append_nil] at same
    rw [List.nil_append, same]
    unfold Decimal.signedDigits
    split
    · rename_i starts
      cases starts
      cases digit
    · rename_i starts
      cases starts
      cases digit
    · rfl
  · rfl
  · rfl

-- Neither digits nor a point go on into the exponent.
theorem exponent_ends (exponent : Int) (text : Chars) (spells : SpellsExponent exponent text) :
    (∀ c ∈ text.head?, c.isDigit = false) ∧ (text.head? == some '.') = false := by
  rcases spells with ⟨_, rfl⟩ | ⟨letter, sign, digits, rfl, rfl | rfl, _⟩
  · exact ⟨nofun, rfl⟩
  · simp
  · simp

theorem exponent_read (exponent : Int) (text : Chars) : SpellsExponent exponent text →
    (match text with
      | [] => 0
      | _ :: digits => Decimal.signedDigits digits) = exponent := by
  rintro (⟨rfl, rfl⟩ | ⟨letter, sign, digits, rfl, _, isDigits, value⟩)
  · rfl
  · exact signed_digits exponent sign digits isDigits value

theorem fraction_read (digits point power : Chars) (spells : SpellsFraction digits point)
    (ends : ∀ c ∈ power.head?, c.isDigit = false) (noPoint : (power.head? == some '.') = false) :
    (∀ c ∈ (point ++ power).head?, c.isDigit = false) ∧
      (if (point ++ power).head? == some '.' then (point ++ power).tail.takeWhile Char.isDigit else []) = digits ∧
      (if (point ++ power).head? == some '.' then (point ++ power).tail.dropWhile Char.isDigit else point ++ power) =
        power := by
  rcases spells with ⟨rfl, rfl⟩ | ⟨isDigits, rfl⟩
  · rw [List.nil_append, noPoint]
    exact ⟨ends, rfl, rfl⟩
  · obtain ⟨taken, left⟩ := take_while_all Char.isDigit digits power isDigits.2 ends
    exact ⟨by simp, taken, left⟩

theorem sign_read (negative : Bool) (whole rest : Chars) (isDigits : IsDigits whole) :
    let text := (if negative then ['-'] else []) ++ (whole ++ rest)
    (text.head? == some '-') = negative ∧ (if negative then text.tail else text) = whole ++ rest := by
  cases negative with
  | true => exact ⟨rfl, rfl⟩
  | false =>
      obtain ⟨c, more, same, digit⟩ := digits_first whole rest isDigits
      refine ⟨?_, rfl⟩
      rw [same, if_neg Bool.false_ne_true, List.nil_append, List.head?_cons, beq_eq_false_iff_ne]
      rintro ⟨⟩
      cases digit

theorem scientific_spelled (n : Numeral) (text : Chars) (spells : n.Spells text) :
    Decimal.scientific text = ⟨n.negative, n.mantissa, n.power⟩ := by
  obtain ⟨point, power, rfl, whole, isFraction, isExponent⟩ := spells
  obtain ⟨ends, noPoint⟩ := exponent_ends n.exponent power isExponent
  obtain ⟨stops, digits, left⟩ := fraction_read n.fraction point power isFraction ends noPoint
  obtain ⟨sign, unsigned⟩ := sign_read n.negative n.whole (point ++ power) whole
  obtain ⟨taken, rest⟩ := take_while_all Char.isDigit n.whole (point ++ power) whole.2 stops
  have value := exponent_read n.exponent power isExponent
  rw [List.append_assoc, List.append_assoc, Decimal.scientific]
  simp only [sign, unsigned, taken, rest, digits, left]
  exact congrArg (fun exponent => Decimal.Scientific.mk n.negative n.mantissa (exponent - n.fraction.length)) value

theorem double_spelled (n : Numeral) (text : Chars) (spells : n.Spells text) : Decimal.double text = n.double := by
  rw [Decimal.double, scientific_spelled n text spells]
  rfl

theorem exponent_spelled (text : Chars) (isExponent : IsExponent text) : ∃ exponent, SpellsExponent exponent text := by
  rcases isExponent with rfl | ⟨letter, sign, digits, rfl, isLetter, plus | plus | minus, isDigits⟩
  · exact ⟨0, .inl ⟨rfl, rfl⟩⟩
  · exact ⟨natural digits, .inr ⟨letter, sign, digits, rfl, isLetter, isDigits, .inl ⟨.inl plus, rfl⟩⟩⟩
  · exact ⟨natural digits, .inr ⟨letter, sign, digits, rfl, isLetter, isDigits, .inl ⟨.inr plus, rfl⟩⟩⟩
  · exact ⟨-(natural digits : Int), .inr ⟨letter, sign, digits, rfl, isLetter, isDigits, .inr ⟨minus, rfl⟩⟩⟩

theorem number_spelled (text : String) (number : IsNumber text) : ∃ n : Numeral, n.Spells text.toList := by
  obtain ⟨minus, whole, point, power, same, isMinus, isDigits, isFraction, isExponent⟩ := number
  obtain ⟨exponent, spellsExponent⟩ := exponent_spelled power isExponent
  obtain ⟨fraction, spellsFraction⟩ : ∃ digits, SpellsFraction digits point := by
    rcases isFraction with rfl | ⟨digits, rfl, isDigits⟩
    · exact ⟨[], .inl ⟨rfl, rfl⟩⟩
    · exact ⟨digits, .inr ⟨isDigits, rfl⟩⟩
  rw [same]
  rcases isMinus with rfl | rfl
  · exact ⟨⟨false, whole, fraction, exponent⟩, point, power, rfl, isDigits, spellsFraction, spellsExponent⟩
  · exact ⟨⟨true, whole, fraction, exponent⟩, point, power, rfl, isDigits, spellsFraction, spellsExponent⟩

-- The double of a text, in whatever way its parts are told.
def Denotes (text : String) (number : Float) : Prop :=
  (∃ n : Numeral, n.Spells text.toList) ∧ ∀ n : Numeral, n.Spells text.toList → number = n.double

theorem denotes_double (text : String) (number : IsNumber text) : Denotes text (Decimal.double text.toList) :=
  ⟨number_spelled text number, fun n spells => double_spelled n text.toList spells⟩

end Numeral

end LoopDeps.Text
