import LoopDeps.Proofs.Text.Accepting
import LoopDeps.Proofs.Text.Spanning
set_option autoImplicit false

/- How the lines of a text are laid out does not matter. Blanks and comments at the end of a line are passed over, and a
   line may end in any of three ways. -/
namespace LoopDeps

namespace Text

-- Spaces and tabs, and then a comment or nothing.
def IsTrail (trail : Chars) : Prop :=
  ∃ blanks comment, trail = blanks ++ comment ∧ (∀ c ∈ blanks, c = ' ' ∨ c = '\t') ∧
    (comment = [] ∨ ∃ words, comment = ';' :: words ∧ ∀ c ∈ words, isLineEnd c = false)

def lineEnds : List Chars := [['\n'], ['\r', '\n'], ['\r']]

-- A text with something behind some of its lines, and some of its lines ending otherwise.
inductive Relaid : Chars → Chars → Prop where
  | last (trail : Chars) (passed : IsTrail trail) : Relaid [] trail
  | keep (c : Char) (rest left : Chars) (relaid : Relaid rest left) : Relaid (c :: rest) (c :: left)
  | line (trail ending other rest left : Chars) (passed : IsTrail trail) (ends : ending ∈ lineEnds)
      (alsoEnds : other ∈ lineEnds) (relaid : Relaid rest left) : Relaid (ending ++ rest) (trail ++ other ++ left)

-- The end of a line or of the text.
def EndsLine (s : Chars) : Prop := ∀ c ∈ s.head?, isLineEnd c = true

theorem ends_line_of (ending rest : Chars) (ends : ending ∈ lineEnds) : EndsLine (ending ++ rest) := by
  simp only [lineEnds, List.mem_cons, List.not_mem_nil, or_false] at ends
  rcases ends with rfl | rfl | rfl <;> rintro c ⟨⟩ <;> rfl

theorem clear_ending (comment : Bool) (ending rest : Chars) (ends : ending ∈ lineEnds) :
    clearLines comment (ending ++ rest) = clear rest := by
  simp only [lineEnds, List.mem_cons, List.not_mem_nil, or_false] at ends
  rcases ends with rfl | rfl | rfl <;> rfl

theorem line_end_ending (ending rest : Chars) (ends : ending ∈ lineEnds) : lineEnd (ending ++ rest) ≠ none := by
  simp only [lineEnds, List.mem_cons, List.not_mem_nil, or_false] at ends
  rcases ends with rfl | rfl | rfl <;>
    exact fun unended => Bool.false_ne_true ((line_end_none_iff _ _).mp unended).symm

theorem comment_passed (words s : Chars) (within : ∀ c ∈ words, isLineEnd c = false) :
    skipBlanks true (words ++ s) = skipBlanks true s := by
  induction words with
  | nil => rfl
  | cons c rest ih =>
      obtain ⟨goesOn, others⟩ := List.forall_mem_cons.mp within
      rw [List.cons_append, skip_blanks_cons, goesOn]
      exact ih others

theorem blanks_passed (comment : Bool) (blanks s : Chars) (all : ∀ c ∈ blanks, c = ' ' ∨ c = '\t') :
    skipBlanks comment (blanks ++ s) = skipBlanks comment s := by
  induction blanks with
  | nil => rfl
  | cons c rest ih =>
      obtain ⟨here, others⟩ := List.forall_mem_cons.mp all
      have step : skipBlanks comment (c :: (rest ++ s)) = skipBlanks comment (rest ++ s) := by
        rcases here with rfl | rfl <;> cases comment <;> rfl
      rw [List.cons_append, step, ih others]

theorem trail_passed (comment : Bool) (trail s : Chars) (passed : IsTrail trail) (ends : EndsLine s) :
    skipBlanks comment (trail ++ s) = s := by
  have stays : ∀ comment, skipBlanks comment s = s := by
    intro comment
    cases s with
    | nil => rfl
    | cons c rest => simp [skip_blanks_cons, ends c rfl]
  obtain ⟨blanks, _, rfl, spaces, rfl | ⟨words, rfl, within⟩⟩ := passed
  · rw [List.append_nil, blanks_passed comment blanks s spaces, stays]
  · have opened : skipBlanks comment (';' :: (words ++ s)) = skipBlanks true (words ++ s) := by cases comment <;> rfl
    rw [List.append_assoc, blanks_passed comment blanks _ spaces, List.cons_append, opened,
      comment_passed words s within, stays]

theorem trail_alone (comment : Bool) (trail : Chars) (passed : IsTrail trail) : skipBlanks comment trail = [] := by
  simpa using trail_passed comment trail [] passed nofun

theorem no_trail : IsTrail [] := ⟨[], [], rfl, nofun, .inl rfl⟩

theorem relaid_skip (comment : Bool) (s t : Chars) (relaid : Relaid s t) :
    Relaid (skipBlanks comment s) (skipBlanks comment t) := by
  induction relaid generalizing comment with
  | last trail passed =>
      rw [trail_alone comment trail passed]
      exact .last [] no_trail
  | keep c rest left relaid ih =>
      rw [skip_blanks_cons, skip_blanks_cons]
      split
      · exact ih _
      · exact .keep c rest left relaid
  | line trail ending other rest left passed ends alsoEnds relaid =>
      have here := trail_passed comment [] (ending ++ rest) no_trail (ends_line_of ending rest ends)
      have there := trail_passed comment trail (other ++ left) passed (ends_line_of other left alsoEnds)
      rw [List.nil_append] at here
      rw [here, List.append_assoc, there]
      exact .line [] ending other rest left no_trail ends alsoEnds relaid

theorem relaid_clear (comment : Bool) (s t : Chars) (relaid : Relaid s t) :
    Relaid (clearLines comment s) (clearLines comment t) := by
  induction relaid generalizing comment with
  | last trail passed =>
      rw [← clear_blanks comment trail, trail_alone comment trail passed]
      exact .last [] no_trail
  | keep c rest left relaid ih =>
      rw [clearLines, clearLines]
      split
      · exact ih _
      · split
        · exact ih _
        · exact .keep c rest left relaid
  | line trail ending other rest left passed ends alsoEnds relaid ih =>
      have there := trail_passed comment trail (other ++ left) passed (ends_line_of other left alsoEnds)
      rw [clear_ending comment ending rest ends, List.append_assoc,
        ← clear_blanks comment (trail ++ (other ++ left)), there,
        show clear (other ++ left) = clear left from clear_ending false other left alsoEnds]
      exact ih false

-- Both go on with the same character, or both are at a blank or at the end of a line.
theorem relaid_next (s t : Chars) (relaid : Relaid s t) :
    (∃ c rest left, s = c :: rest ∧ t = c :: left ∧ Relaid rest left) ∨
      (∀ c ∈ s.head?, (isBlank c || isLineEnd c) = true) ∧ ∀ c ∈ t.head?, (isBlank c || isLineEnd c) = true := by
  have ended : ∀ s, EndsLine s → ∀ c ∈ s.head?, (isBlank c || isLineEnd c) = true := fun s ends c here => by
    rw [ends c here, Bool.or_true]
  have trailing : ∀ trail s, IsTrail trail → EndsLine s →
      ∀ c ∈ (trail ++ s).head?, (isBlank c || isLineEnd c) = true := by
    rintro _ s ⟨blanks, comment, rfl, spaces, filled⟩ ends c here
    cases blanks with
    | cons blank rest =>
        cases here
        rcases spaces c List.mem_cons_self with rfl | rfl <;> rfl
    | nil =>
        rcases filled with rfl | ⟨words, rfl, _⟩
        · exact ended s ends c here
        · cases here
          rfl
  cases relaid with
  | last _ passed => exact .inr ⟨nofun, by simpa using trailing t [] passed nofun⟩
  | keep c rest left relaid => exact .inl ⟨c, rest, left, rfl, rfl, relaid⟩
  | line trail ending other rest left passed ends alsoEnds relaid =>
      refine .inr ⟨ended _ (ends_line_of ending rest ends), ?_⟩
      rw [List.append_assoc]
      exact trailing trail _ passed (ends_line_of other left alsoEnds)

theorem relaid_empty (s t : Chars) (relaid : Relaid s t) (settled : skip t = t) : s = [] ↔ t = [] := by
  cases relaid with
  | last _ passed =>
      rw [skip, trail_alone false t passed] at settled
      simp [← settled]
  | keep c rest left _ => simp
  | line trail ending other rest left _ ends alsoEnds _ =>
      have filled : ∀ ending ∈ lineEnds, ending ≠ [] := by decide
      simp [filled ending ends, filled other alsoEnds]

theorem linewise_relaid : Linewise Relaid := by
  refine ⟨⟨?_, relaid_skip false⟩, ?_, relaid_clear false⟩
  · intro s t relaid
    have gap : ∀ s : Chars, (∀ c ∈ s.head?, (isBlank c || isLineEnd c) = true) → Idle s := fun s all c here => by
      rw [isGap, all c here, Bool.true_or]
    exact (relaid_next s t relaid).imp id fun both => ⟨gap s both.1, gap t both.2⟩
  · intro s t relaid
    have close := relaid_skip false s t relaid
    have settled := skip_skip t
    rw [skip, skip] at settled
    rw [skip, skip]
    generalize skipBlanks false s = before at close ⊢
    generalize skipBlanks false t = after at close settled ⊢
    cases close with
    | last _ passed =>
        rw [trail_alone false after passed] at settled
        rw [← settled]
    | keep c rest left _ => rw [line_end_none_iff, line_end_none_iff]
    | line trail ending other rest left passed ends alsoEnds _ =>
        have bare := trail_passed false trail (other ++ left) passed (ends_line_of other left alsoEnds)
        rw [← List.append_assoc, settled] at bare
        rw [bare]
        exact iff_of_false (line_end_ending ending rest ends) (line_end_ending other left alsoEnds)

namespace Grammar

open Matcher

theorem steady_closing : (sign "\x7d").Steady Relaid 1 := by
  refine ⟨?_, ?_⟩
  · intro s value rest read
    obtain ⟨_, dropped, same⟩ := Option.map_eq_some_iff.mp read
    cases same
    exact Nat.le_of_eq (drop_literal_length _ s rest dropped)
  · intro s t close
    have missed : ∀ s : Chars, (∀ c ∈ s.head?, (isBlank c || isLineEnd c) = true) → (sign "\x7d").read s = none := by
      intro s halted
      cases s with
      | nil => rfl
      | cons c rest =>
          apply (leads_sign "\x7d" '\x7d' [] rfl).cons c rest
          rw [beq_eq_false_iff_ne]
          rintro rfl
          exact Bool.false_ne_true (halted _ rfl)
    rcases relaid_next _ _ close with ⟨c, rest, left, here, there, rests⟩ | ⟨here, there⟩
    · rw [here, there]
      by_cases closes : '\x7d' = c
      · subst closes
        exact .found () rest left (relaid_skip false rest left rests)
      · have other : ∀ s, (sign "\x7d").read (c :: s) = none := fun s =>
          (leads_sign "\x7d" '\x7d' [] rfl).cons c s (beq_eq_false_iff_ne.mpr (Ne.symm closes))
        rw [other, other]
        exact .missed
    · rw [missed _ here, missed _ there]
      exact .missed

theorem steady_function_relaid : function.Steady Relaid 1 :=
  (((steady_unclosed linewise_relaid).keepLeft steady_closing).of_read function_read).weaken (by decide)

theorem listed_relaid (functions : List WrittenFunction) (s t : Chars) (settled : skip s = s) (alsoSettled : skip t = t)
    (relaid : Relaid s t) : Listed s functions ↔ Listed t functions := by
  have empty := relaid_empty s t relaid alsoSettled
  have agree := steady_function_relaid.agree s t (by rwa [Behind, settled, alsoSettled])
  rw [settled, alsoSettled] at agree
  rw [listed_iff, listed_iff]
  cases here : function.read s with
  | none =>
      rw [agree.none_iff.mp here]
      exact and_congr_left fun _ => empty
  | some found =>
      obtain ⟨left, there, close⟩ := agree.some_left found.1 found.2 here
      rw [there]
      have clears := linewise_relaid.clears _ _ close
      rw [clear_skip, clear_skip] at clears
      exact exists_congr fun others => and_congr_right fun _ =>
        listed_relaid others (clear found.2) (clear left) (skip_clear _) (skip_clear _) clears
termination_by functions.length
decreasing_by simp [*]

end Grammar

theorem read_relaid (s t : Chars) (relaid : Relaid s t) (functions : List WrittenFunction) :
    read t = .ok functions ↔ read s = .ok functions := by
  rw [read_ok_iff, read_ok_iff]
  exact (Grammar.listed_relaid functions _ _ (skip_clear s) (skip_clear t) (relaid_clear false s t relaid)).symm

theorem Relaid.after (front s t : Chars) (relaid : Relaid s t) : Relaid (front ++ s) (front ++ t) := by
  induction front with
  | nil => exact relaid
  | cons c rest ih => exact .keep c _ _ ih

end Text

-- Neither what stands behind the lines nor how they end changes what a text gives, nor whether it is a mismatch.
theorem layout_irrelevant (text other : String) (relaid : Text.Relaid text.toList other.toList) :
    (∀ fs, parse other = .ok fs ↔ parse text = .ok fs) ∧
      ((∃ found, parse other = .error (.mismatch found)) ↔ ∃ found, parse text = .error (.mismatch found)) := by
  have same := Text.read_relaid text.toList other.toList relaid
  refine ⟨?_, ?_⟩
  · intro fs
    rw [parse_ok_iff, parse_ok_iff]
    exact exists_congr fun written => and_congr_left' (same written)
  · rw [parse_mismatch_iff, parse_mismatch_iff]
    exact forall_congr' fun written => not_congr (same written)

def plainText : String := "func @f() \x7b\n\na:\n  ret\n\x7d"

-- The two line ends behind the opening brace have become one.
def laidText : String := "func @f() \x7b\r\na: \t; entry\r  ret;\r\n\x7d \t; end"

theorem laid_text_relaid : Text.Relaid plainText.toList laidText.toList := by
  have noted : ∀ words : Text.Chars, words.any Text.isLineEnd = false → Text.IsTrail (' ' :: '\t' :: ';' :: words) :=
    fun words within => ⟨[' ', '\t'], ';' :: words, rfl, by simp, .inr ⟨words, rfl, by simpa using within⟩⟩
  have opened : Text.IsTrail [';'] := ⟨[], [';'], rfl, nofun, .inr ⟨[], rfl, nofun⟩⟩
  have last : Text.Relaid [] (' ' :: '\t' :: ';' :: " end".toList) := .last _ (noted _ rfl)
  have closing : Text.Relaid ("\n\x7d".toList ++ []) (";\r\n\x7d".toList ++ ' ' :: '\t' :: ';' :: " end".toList) :=
    .line [';'] ['\n'] ['\r', '\n'] _ _ opened (by decide) (by decide) (.after ['\x7d'] _ _ last)
  have labelled := Text.Relaid.line (' ' :: '\t' :: ';' :: " entry".toList) ['\n'] ['\r'] _ _ (noted _ rfl)
    (by decide) (by decide) (.after "  ret".toList _ _ closing)
  have braced := Text.Relaid.line [] ['\n'] ['\r'] _ _ Text.no_trail (by decide) (by decide)
    (.keep '\n' _ _ (.after "a:".toList _ _ labelled))
  exact .after "func @f() \x7b".toList _ _ braced

theorem laid_text_same :
    Text.Relaid plainText.toList laidText.toList ∧ (parse plainText).isOk = true ∧
      (∀ fs, parse laidText = .ok fs ↔ parse plainText = .ok fs) ∧
      ((∃ found, parse laidText = .error (.mismatch found)) ↔ ∃ found, parse plainText = .error (.mismatch found)) :=
  ⟨laid_text_relaid, by decide +kernel, layout_irrelevant plainText laidText laid_text_relaid⟩

end LoopDeps
