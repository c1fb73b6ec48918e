import LoopDeps.Decimal.Places
import LoopDeps.Decimal.Read
set_option autoImplicit false

/- Numbers and separators in written texts, read back. A text cut at a separator gives the parts it was made of,
   when none of them holds the separator. -/
namespace LoopDeps.Output

abbrev Text := List Char

def digitsOf (n : Nat) : Text := (toString n).toList

-- Digits only, and at least one of them.
def number? (text : Text) : Option Nat :=
  if text.isEmpty || text.any (fun c => !c.isDigit) then none else some (Decimal.digitsValue text)

theorem digits_of_eq (n : Nat) : digitsOf n = Nat.toDigits 10 n := by
  rw [digitsOf, Nat.toString_eq_ofList_toDigits, String.toList_ofList]

theorem digit_of_mem (n : Nat) (c : Char) (member : c ∈ digitsOf n) : c.isDigit = true := by
  rw [digits_of_eq] at member
  exact Nat.isDigit_of_mem_toDigits (by decide) (by decide) member

theorem digits_of_filled (n : Nat) : digitsOf n ≠ [] := by
  rw [digits_of_eq]
  exact Nat.toDigits_ne_nil

theorem value_of_digits (n : Nat) : Decimal.digitsValue (digitsOf n) = n := by
  rw [digits_of_eq]
  exact Nat.ofDigitChars_ten_toDigits

theorem digits_of_injective (m n : Nat) (same : digitsOf m = digitsOf n) : m = n := by
  rw [← value_of_digits m, ← value_of_digits n, same]

theorem number_of_digits (n : Nat) : number? (digitsOf n) = some n := by
  have filled : (digitsOf n).isEmpty = false := by simpa using digits_of_filled n
  have clean : (digitsOf n).any (fun c => !c.isDigit) = false := by
    simpa using digit_of_mem n
  rw [number?, filled, clean, Bool.or_self, if_neg Bool.false_ne_true, value_of_digits]

-- Every part is closed by the separator.
def closed (separator : Char) (parts : List Text) : Text := parts.flatMap fun part => part ++ [separator]

theorem closed_cons (separator : Char) (part : Text) (rest : List Text) :
    closed separator (part :: rest) = part ++ separator :: closed separator rest := by
  simp [closed]

-- Every part but the first is led by the separator.
def led (separator : Char) (first : Text) (parts : List Text) : Text :=
  first ++ parts.flatMap fun part => separator :: part

theorem split_closed (separator : Char) (parts : List Text) (free : ∀ part ∈ parts, separator ∉ part) :
    (closed separator parts).splitOn separator = parts ++ [[]] := by
  induction parts with
  | nil => rfl
  | cons part rest ih =>
      have here := free part List.mem_cons_self
      have later := ih fun other member => free other (List.mem_cons_of_mem _ member)
      rw [closed_cons, List.splitOn_append_cons_self_of_not_mem here, later]
      rfl

theorem split_led (separator : Char) (first : Text) (parts : List Text)
    (free : ∀ part ∈ first :: parts, separator ∉ part) :
    (led separator first parts).splitOn separator = first :: parts := by
  induction parts generalizing first with
  | nil =>
      have alone : led separator first [] = first := by simp [led]
      rw [alone, List.splitOn_eq_singleton (free first List.mem_cons_self)]
  | cons part rest ih =>
      have here := free first List.mem_cons_self
      have later := ih part fun other member => free other (List.mem_cons_of_mem _ member)
      have split : led separator first (part :: rest) = first ++ separator :: led separator part rest := by
        simp [led]
      rw [split, List.splitOn_append_cons_self_of_not_mem here, later]

-- The parts of a text of closed lines.
def lines? (text : Text) : Option (List Text) :=
  let parts := text.splitOn '\n'
  if parts.getLast? = some [] then some parts.dropLast else none

theorem lines_closed (lines : List Text) (free : ∀ line ∈ lines, '\n' ∉ line) :
    lines? (closed '\n' lines) = some lines := by
  unfold lines?
  rw [split_closed '\n' lines free]
  simp

-- Without a character that separates fields or lines.
def Plain (text : Text) : Prop := '\t' ∉ text ∧ '\n' ∉ text

theorem plain_of_all (text : Text) (allowed : Char → Prop) (inText : ∀ c ∈ text, allowed c)
    (noTab : ¬allowed '\t') (noLine : ¬allowed '\n') : Plain text :=
  ⟨fun member => noTab (inText _ member), fun member => noLine (inText _ member)⟩

theorem digits_plain (n : Nat) : Plain (digitsOf n) :=
  plain_of_all _ (fun c => c.isDigit = true) (digit_of_mem n) (by decide) (by decide)

-- Fields on one line stay on it.
theorem led_unbroken (first : Text) (parts : List Text) (clean : ∀ part ∈ first :: parts, Plain part) :
    '\n' ∉ led '\t' first parts := by
  intro member
  rcases List.mem_append.mp member with early | late
  · exact (clean first List.mem_cons_self).2 early
  · obtain ⟨part, listed, inPart⟩ := List.mem_flatMap.mp late
    rcases List.mem_cons.mp inPart with tab | inside
    · exact absurd tab (by decide)
    · exact (clean part (List.mem_cons_of_mem _ listed)).2 inside

theorem char_with_point (places scaled : Nat) (c : Char) (member : c ∈ Decimal.withPoint places scaled) :
    c.isDigit = true ∨ c = '.' := by
  have digit : ∀ c ∈ List.replicate (places + 1 - (Nat.toDigits 10 scaled).length) '0' ++ Nat.toDigits 10 scaled,
      c.isDigit = true := by
    intro c member
    rcases List.mem_append.mp member with pad | digit
    · rw [(List.mem_replicate.mp pad).2]
      rfl
    · exact Nat.isDigit_of_mem_toDigits (by decide) (by decide) digit
  unfold Decimal.withPoint at member
  dsimp only at member
  split at member
  · exact Or.inl (Nat.isDigit_of_mem_toDigits (by decide) (by decide) member)
  · rcases List.mem_append.mp member with whole | rest
    · exact Or.inl (digit c (List.mem_of_mem_take whole))
    · rcases List.mem_cons.mp rest with point | fraction
      · exact Or.inr point
      · exact Or.inl (digit c (List.mem_of_mem_drop fraction))

theorem fixed_plain (places : Nat) (x : Float) : Plain (Decimal.fixed places x).toList := by
  have named : ∀ text ∈ ["NaN", "inf", "-inf"], Plain text.toList := by
    unfold Plain
    decide
  unfold Decimal.fixed Decimal.signed
  cases Decimal.magnitude x with
  | nan => exact named "NaN" (by simp)
  | infinite =>
      show Plain (if Decimal.negative x then "-inf" else "inf").toList
      split
      · exact named "-inf" (by simp)
      · exact named "inf" (by simp)
  | finite units power narrow =>
      dsimp only
      rw [String.toList_ofList]
      refine plain_of_all _ (fun c => c.isDigit = true ∨ c = '.' ∨ c = '-') ?_ (by decide) (by decide)
      intro c member
      split at member
      · rcases List.mem_cons.mp member with sign | digit
        · exact Or.inr (Or.inr sign)
        · exact (char_with_point _ _ c digit).imp_right Or.inl
      · exact (char_with_point _ _ c member).imp_right Or.inl

end LoopDeps.Output
