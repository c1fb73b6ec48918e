import LoopDeps.Proofs.Text.Resolving
import LoopDeps.Proofs.Text.Spanning
set_option autoImplicit false

/- Modules one behind the other. A function ends at its closing brace, so that nothing behind it is looked at, and a comment
   behind the last one ends with its line. -/
namespace LoopDeps

namespace Text

-- Whether a closing brace stands outside of all comments. The flag tells whether a comment is open.
def closes (comment : Bool) : Chars → Bool
  | [] => false
  | c :: rest =>
      if isLineEnd c then closes false rest
      else (!comment && c == '\x7d') || closes (comment || c == ';') rest

theorem closes_dropped (comment : Bool) (c : Char) (rest : Chars) (goesOn : isLineEnd c = false)
    (dropped : (comment || isBlank c) = true) : closes comment (c :: rest) = closes (comment || c == ';') rest := by
  have inner : (!comment && c == '\x7d') = false := by
    rcases Bool.or_eq_true_iff.mp dropped with rfl | blank
    · rfl
    · have other : (c == '\x7d') = false := beq_false_of_ne (class_ne c isBlank blank '\x7d' rfl)
      rw [other, Bool.and_false]
  rw [closes, goesOn, if_neg Bool.false_ne_true, inner, Bool.false_or]

theorem closes_blanks (comment : Bool) (s : Chars) : closes false (skipBlanks comment s) = closes comment s := by
  induction s generalizing comment with
  | nil => rfl
  | cons c rest ih =>
      rcases front_cases comment c with ends | ⟨goesOn, dropped⟩ | ⟨goesOn, rfl, solid⟩
      · simp [skip_blanks_cons, closes, ends]
      · rw [closes_dropped comment c rest goesOn dropped, ← ih, skip_blanks_cons, goesOn, dropped]
        rfl
      · simp [skip_blanks_cons, goesOn, solid]

theorem closes_clear (comment : Bool) (s : Chars) : closes false (clearLines comment s) = closes comment s := by
  induction s generalizing comment with
  | nil => rfl
  | cons c rest ih =>
      rcases front_cases comment c with ends | ⟨goesOn, dropped⟩ | ⟨goesOn, rfl, solid⟩
      · simpa [clearLines, closes, ends] using ih false
      · rw [closes_dropped comment c rest goesOn dropped, ← ih, clearLines, goesOn, if_neg Bool.false_ne_true,
          if_pos dropped]
      · simp [clearLines, goesOn, solid]

-- A character within a line is no closing brace.
theorem closes_next (c : Char) (rest : Chars) (solid : isGap c = false) : closes false (c :: rest) = closes false rest := by
  obtain ⟨⟨blank, ends⟩, brace⟩ : (isBlank c = false ∧ isLineEnd c = false) ∧ (c == '\x7d') = false := by
    simpa only [isGap, Bool.or_eq_false_iff] using solid
  have comment : (c == ';') = false := by simp only [isBlank, Bool.or_eq_false_iff] at blank; exact blank.2
  rw [closes, ends, if_neg Bool.false_ne_true, brace, Bool.and_false, Bool.false_or, comment, Bool.or_self]

theorem blanks_joined (comment : Bool) (s t : Chars) :
    skipBlanks comment (s ++ '\n' :: t) = skipBlanks comment s ++ '\n' :: t := by
  induction s generalizing comment with
  | nil => cases comment <;> rfl
  | cons c rest ih =>
      rw [List.cons_append, skip_blanks_cons, skip_blanks_cons]
      split
      · exact ih _
      · rfl

theorem lines_joined (comment : Bool) (s t : Chars) : clearLines comment (s ++ '\n' :: t) =
    if clearLines comment s = [] then clear t else clearLines comment s ++ '\n' :: t := by
  induction s generalizing comment with
  | nil => rfl
  | cons c rest ih =>
      rw [List.cons_append, clearLines, clearLines]
      split
      · exact ih false
      · split
        · exact ih _
        · rfl

theorem skip_joined (s t : Chars) : skip (s ++ '\n' :: t) = skip s ++ '\n' :: t := blanks_joined false s t

theorem clear_joined (s t : Chars) :
    clear (s ++ '\n' :: t) = if clear s = [] then clear t else clear s ++ '\n' :: t := lines_joined false s t

theorem closes_skip (s : Chars) : closes false (skip s) = closes false s := closes_blanks false s

-- The same text, where a brace that is still to come had to come from the start.
def Closing (start s t : Chars) : Prop := s = t ∧ (closes false s = true → closes false start = true)

theorem linewise_closing (start : Chars) : Linewise (Closing start) := by
  refine ⟨⟨?_, ?_⟩, ?_, ?_⟩
  · rintro s _ ⟨rfl, closing⟩
    cases s with
    | nil => exact .inr ⟨nofun, nofun⟩
    | cons c rest =>
        cases gap : isGap c with
        | true => exact .inr ⟨fun _ here => by cases here; exact gap, fun _ here => by cases here; exact gap⟩
        | false => exact .inl ⟨c, rest, rest, rfl, rfl, rfl, fun later => closing (by rwa [closes_next c rest gap])⟩
  · rintro s _ ⟨rfl, closing⟩
    exact ⟨rfl, fun later => closing (by rwa [closes_skip] at later)⟩
  · rintro s _ ⟨rfl, _⟩
    rfl
  · rintro s _ ⟨rfl, closing⟩
    exact ⟨rfl, fun later => closing (by rwa [clear, closes_clear] at later)⟩

-- A text and the same with more lines behind it, where a brace is still to come.
def Goes (more s t : Chars) : Prop := closes false s = true ∧ t = s ++ '\n' :: more

theorem linewise_goes (more : Chars) : Linewise (Goes more) := by
  refine ⟨⟨?_, ?_⟩, ?_, ?_⟩
  · rintro s _ ⟨closing, rfl⟩
    cases s with
    | nil => cases closing
    | cons c rest =>
        cases gap : isGap c with
        | true => exact .inr ⟨fun _ here => by cases here; exact gap, fun _ here => by cases here; exact gap⟩
        | false =>
            rw [closes_next c rest gap] at closing
            exact .inl ⟨c, rest, _, rfl, rfl, closing, rfl⟩
  · rintro s _ ⟨closing, rfl⟩
    exact ⟨by rwa [closes_skip], skip_joined s more⟩
  · rintro s _ ⟨closing, rfl⟩
    have later : closes false (skip s) = true := by rwa [closes_skip]
    rw [skip_joined]
    cases here : skip s with
    | nil =>
        rw [here] at later
        cases later
    | cons c rest => rw [List.cons_append, line_end_none_iff, line_end_none_iff]
  · rintro s _ ⟨closing, rfl⟩
    have later : closes false (clear s) = true := by rwa [clear, closes_clear]
    have filled : clear s ≠ [] := fun empty => by
      rw [empty] at later
      cases later
    exact ⟨later, by rw [clear_joined, if_neg filled]⟩

namespace Grammar

open Matcher

theorem closing_read (s rest : Chars) : (sign "\x7d").read s = some ((), rest) ↔ s = '\x7d' :: rest := by
  cases s with
  | nil => exact iff_of_false nofun nofun
  | cons c more =>
      by_cases closing : '\x7d' = c
      · subst closing
        simp [sign, literal, dropLiteral]
      · simp [sign, literal, dropLiteral, closing, Ne.symm closing]

theorem keep_left_some {α β : Type} (p : Part α) (q : Part β) (s rest : Chars) (value : α) :
    (p.keepLeft q).read s = some (value, rest) ↔
      ∃ middle dropped, p.read s = some (value, middle) ∧ q.read (skip middle) = some (dropped, rest) := by
  simp [Matcher.keepLeft, Matcher.map, and_then_read, Option.bind_eq_some_iff, Option.map_eq_some_iff]

-- A function that is read closes, and what stands behind its line makes no difference.
theorem function_joined (s rest more : Chars) (first : WrittenFunction) (settled : skip s = s)
    (read : function.read s = some (first, rest)) :
    function.read (s ++ '\n' :: more) = some (first, rest ++ '\n' :: more) := by
  rw [function_read, keep_left_some] at read ⊢
  obtain ⟨middle, ⟨⟩, body, ends⟩ := read
  have brace := (closing_read _ _).mp ends
  have closing : closes false s = true := by
    have same := (steady_unclosed (linewise_closing s)).agree s s (by rw [Behind, settled]; exact ⟨rfl, id⟩)
    rw [settled] at same
    obtain ⟨_, _, _, back⟩ := same.some_left first middle body
    exact back (by rw [brace]; rfl)
  have joined : skip (s ++ '\n' :: more) = s ++ '\n' :: more := by rw [skip_joined, settled]
  have agree := (steady_unclosed (linewise_goes more)).agree s (s ++ '\n' :: more)
    (by rw [Behind, joined, settled]; exact ⟨closing, rfl⟩)
  rw [joined, settled] at agree
  obtain ⟨left, also, _, behind⟩ := agree.some_left first middle body
  exact ⟨left, (), also, (closing_read _ _).mpr (by rw [behind, brace, List.cons_append])⟩

theorem listed_joined (s t : Chars) (first second : List WrittenFunction) (settled : clear s = s) (here : Listed s first)
    (there : Listed (clear t) second) : Listed (clear (s ++ '\n' :: t)) (first ++ second) := by
  induction here with
  | done => exact there
  | next s rest func others read _ ih =>
      have filled : clear s ≠ [] := by
        rintro empty
        rw [← settled, empty, steady_function.misses_nil] at read
        cases read
      have joined := clear_joined s t
      rw [if_neg filled, settled] at joined
      rw [joined]
      refine .next _ _ func _ (function_joined s rest t func (by rw [← settled, skip_clear]) read) ?_
      have behind : clear (clear rest ++ '\n' :: t) = clear (rest ++ '\n' :: t) := by
        rw [clear_joined, clear_joined, clear_clear]
      rw [← behind]
      exact ih (clear_clear rest)

end Grammar

theorem read_joined (s t : Chars) (first second : List WrittenFunction) (here : read s = .ok first)
    (there : read t = .ok second) : read (s ++ '\n' :: t) = .ok (first ++ second) := by
  rw [read_ok_iff] at here there ⊢
  have listed := Grammar.listed_joined (clear s) t first second (clear_clear s) here there
  rwa [clear_joined, clear_clear, ← clear_joined] at listed

end Text

-- What one text gives, and then what the other gives.
theorem parse_joined (s t : String) (first second : List Func) (here : parse s = .ok first) (there : parse t = .ok second) :
    parse (s ++ "\n" ++ t) = .ok (first ++ second) := by
  rw [parse_ok_iff] at here there ⊢
  obtain ⟨written, read, resolved⟩ := here
  obtain ⟨others, alsoRead, alsoResolved⟩ := there
  refine ⟨written ++ others, ?_, List.rel_append resolved alsoResolved⟩
  have chars : (s ++ "\n" ++ t).toList = s.toList ++ '\n' :: t.toList := by simp
  rw [chars]
  exact Text.read_joined _ _ _ _ read alsoRead

-- The first module ends in a comment, and the second one uses its names again.
def notedText : String := "func @f(%x: i32) \x7b\na:\n  %y = neg %x\n  br label %a\n\x7d ; @f"

def reusingText : String := "\r\nfunc @f() \x7b\ra:\r  %x = neg 1\r  br label %a\r\x7d"

theorem noted_text_joined :
    ∃ first second, parse notedText = .ok first ∧ parse reusingText = .ok second ∧
      parse (notedText ++ "\n" ++ reusingText) = .ok (first ++ second) := by
  have noted : (parse notedText).isOk = true := by decide +kernel
  have reusing : (parse reusingText).isOk = true := by decide +kernel
  cases here : parse notedText with
  | error error =>
      rw [here] at noted
      cases noted
  | ok first =>
      cases there : parse reusingText with
      | error error =>
          rw [there] at reusing
          cases reusing
      | ok second => exact ⟨first, second, rfl, rfl, parse_joined notedText reusingText first second here there⟩

end LoopDeps
