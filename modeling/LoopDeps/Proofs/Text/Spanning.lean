import LoopDeps.Proofs.Text.Items
import LoopDeps.Proofs.Text.Lines
set_option autoImplicit false

/- The parts of the grammar that go over line ends, from the empty lines between instructions up to a whole module. How
   many line ends stand between two lines, and which, is lost in reading. -/
namespace LoopDeps.Text

-- Drops blanks, comments and line ends. The flag tells whether a comment is open.
def clearLines (comment : Bool) : Chars → Chars
  | [] => []
  | c :: rest =>
      if isLineEnd c then clearLines false rest
      else if comment || isBlank c then clearLines (comment || c == ';') rest
      else c :: rest

def clear (s : Chars) : Chars := clearLines false s

theorem blank_goes_on (c : Char) (blank : isBlank c = true) : isLineEnd c = false := by
  simp only [isBlank, Bool.or_eq_true, beq_iff_eq] at blank
  rcases blank with (rfl | rfl) | rfl <;> rfl

theorem skip_blanks_cons (comment : Bool) (c : Char) (rest : Chars) : skipBlanks comment (c :: rest) =
    if !isLineEnd c && (comment || isBlank c) then skipBlanks (comment || c == ';') rest else c :: rest := by
  cases comment with
  | true => cases ends : isLineEnd c <;> simp [skipBlanks, ends]
  | false =>
      cases blank : isBlank c with
      | false =>
          simp only [isBlank, Bool.or_eq_false_iff] at blank
          simp [skipBlanks, blank]
      | true =>
          have goesOn := blank_goes_on c blank
          simp only [isBlank, Bool.or_eq_true, beq_iff_eq] at blank
          rcases blank with (rfl | rfl) | rfl <;> simp [skipBlanks, goesOn]

-- A character ends the line, is dropped within it, or stays.
theorem front_cases (comment : Bool) (c : Char) :
    isLineEnd c = true ∨ (isLineEnd c = false ∧ (comment || isBlank c) = true) ∨
      isLineEnd c = false ∧ comment = false ∧ isBlank c = false := by
  cases isLineEnd c <;> cases comment <;> cases isBlank c <;> simp

theorem clear_blanks (comment : Bool) (s : Chars) : clear (skipBlanks comment s) = clearLines comment s := by
  induction s generalizing comment with
  | nil => rfl
  | cons c rest ih =>
      rcases front_cases comment c with ends | ⟨goesOn, dropped⟩ | ⟨goesOn, rfl, solid⟩
      · simp [skip_blanks_cons, clear, clearLines, ends]
      · simpa [skip_blanks_cons, clearLines, goesOn, dropped] using ih _
      · simp [skip_blanks_cons, clear, goesOn, solid]

theorem clear_skip (s : Chars) : clear (skip s) = clear s := clear_blanks false s

-- What is left starts with a character of a lexeme.
theorem cleared_front (comment : Bool) (s : Chars) :
    ∀ c ∈ (clearLines comment s).head?, isLineEnd c = false ∧ isBlank c = false := by
  induction s generalizing comment with
  | nil => nofun
  | cons c rest ih =>
      rcases front_cases comment c with ends | ⟨goesOn, dropped⟩ | ⟨goesOn, rfl, solid⟩
      · simpa only [clearLines, ends, if_true] using ih false
      · simpa only [clearLines, goesOn, dropped, if_true, Bool.false_eq_true, if_false] using ih _
      · simp [clearLines, goesOn, solid]

theorem skip_clear (s : Chars) : skip (clear s) = clear s := by
  cases here : clear s with
  | nil => rfl
  | cons c rest => exact skip_solid c rest (cleared_front false s c (by rw [← clear, here]; rfl)).2

theorem clear_clear (s : Chars) : clear (clear s) = clear s := by
  cases here : clear s with
  | nil => rfl
  | cons c rest =>
      obtain ⟨goesOn, solid⟩ := cleared_front false s c (by rw [← clear, here]; rfl)
      simp [clear, clearLines, goesOn, solid]

theorem line_end_none_iff (c : Char) (rest : Chars) : lineEnd (c :: rest) = none ↔ isLineEnd c = false := by
  constructor
  · intro stays
    rw [Bool.eq_false_iff]
    intro ends
    rcases Bool.or_eq_true_iff.mp ends with feed | carriage
    · rw [eq_of_beq feed] at stays
      cases stays
    · rw [eq_of_beq carriage] at stays
      cases rest with
      | nil => cases stays
      | cons d more =>
          unfold lineEnd at stays
          split at stays <;> simp_all
  · intro goesOn
    exact Option.map_eq_none_iff.mp (Grammar.leads_newline.cons c rest goesOn)

theorem line_end_some (s rest : Chars) (ends : lineEnd s = some rest) :
    clear s = clear rest ∧ rest.length < s.length := by
  unfold lineEnd at ends
  split at ends <;> cases ends
  · exact ⟨rfl, Nat.lt_succ_self _⟩
  · exact ⟨rfl, Nat.lt_succ_of_lt (Nat.lt_succ_self _)⟩
  · exact ⟨rfl, Nat.lt_succ_self _⟩

theorem clear_stays (comment : Bool) (s : Chars) (stays : lineEnd (skipBlanks comment s) = none) :
    clearLines comment s = skipBlanks comment s := by
  induction s generalizing comment with
  | nil => rfl
  | cons c rest ih =>
      rcases front_cases comment c with ends | ⟨goesOn, dropped⟩ | ⟨goesOn, rfl, solid⟩
      · simp only [skip_blanks_cons, ends, Bool.not_true, Bool.false_and, Bool.false_eq_true, if_false] at stays
        exact absurd ends (Bool.eq_false_iff.mp ((line_end_none_iff c rest).mp stays))
      · simp only [skip_blanks_cons, clearLines, goesOn, dropped, if_true] at stays ⊢
        exact ih _ stays
      · simp [skip_blanks_cons, clearLines, goesOn, solid]

-- A relation that reading to the end of a line and beyond it keeps as well.
structure Linewise (near : Chars → Chars → Prop) : Prop extends InStep near where
  ends : ∀ s t, near s t → (lineEnd (skip s) = none ↔ lineEnd (skip t) = none)
  clears : ∀ s t, near s t → near (clear s) (clear t)

namespace Grammar

open Matcher

theorem and_then_read {ρ α β : Type} (p : Matcher ρ α) (q : Matcher ρ β) (s : Chars) : (p.andThen q).read s =
    (p.read s).bind fun first => (q.read (skip first.2)).map fun second => ((first.1, second.1), second.2) := by
  cases here : p.read s <;> simp [Matcher.andThen, here]

theorem newline_read (s : Chars) : (newline : Part Unit).read s = (lineEnd s).map fun rest => ((), rest) := rfl

theorem read_more_clears (fuel : Nat) (s : Chars) (enough : s.length ≤ fuel) :
    skip ((newline : Part Unit).readMore fuel s).2 = clear s := by
  induction fuel generalizing s with
  | zero =>
      rw [List.eq_nil_of_length_eq_zero (Nat.le_zero.mp enough)]
      rfl
  | succ fuel ih =>
      cases ends : lineEnd (skip s) with
      | none =>
          simp only [readMore, newline_read, ends, Option.map_none]
          exact (clear_stays false s ends).symm
      | some rest =>
          obtain ⟨same, shorter⟩ := line_end_some (skip s) rest ends
          have bound := skip_bound s
          simp only [readMore, newline_read, ends, Option.map_some]
          rw [ih rest (by omega), ← same, clear_skip]

theorem line_ends_read (s : Chars) :
    ∃ ends rest, (newline : Part Unit).many.read (skip s) = some (ends, rest) ∧ skip rest = clear s := by
  cases ends : lineEnd (skip s) with
  | none =>
      refine ⟨[], skip s, by simp only [Matcher.many, newline_read, ends, Option.map_none], ?_⟩
      rw [skip_skip]
      exact (clear_stays false s ends).symm
  | some rest =>
      refine ⟨_, _, by simp only [Matcher.many, newline_read, ends, Option.map_some]; rfl, ?_⟩
      rw [read_more_clears _ _ (Nat.le_refl _), ← (line_end_some _ _ ends).1, clear_skip]

theorem newlines_miss (s : Chars) (stays : lineEnd s = none) : newlines.read s = none := by
  simp only [newlines, many1, Matcher.map, and_then_read, newline_read, stays, Option.map_none, Option.bind_none]

theorem newlines_take (s rest : Chars) (ends : lineEnd (skip s) = some rest) :
    ∃ values left, newlines.read (skip s) = some (values, left) ∧ skip left = clear s := by
  obtain ⟨values, left, read, cleared⟩ := line_ends_read rest
  refine ⟨() :: values, left, ?_, ?_⟩
  · simp only [newlines, many1, Matcher.map, and_then_read, newline_read, ends, Option.map_some, Option.bind_some, read]
  · rw [cleared, ← (line_end_some _ _ ends).1, clear_skip]

-- A function up to its closing brace.
def unclosed : Part WrittenFunction :=
  (header.andThen ((sign "\x7b").keepRight (newlines.keepRight block.many1))).map
    fun ((name, params), blocks) => ⟨name, params, blocks⟩

theorem function_read (s : Chars) : function.read s = (unclosed.keepLeft (sign "\x7d")).read s := by
  simp only [function, unclosed, Matcher.named, Matcher.map, Matcher.keepLeft, Matcher.keepRight, and_then_read,
    Option.map_bind, Option.bind_assoc, Option.map_map, Option.bind_map, Function.comp_def]

theorem steady_newline : (newline : Part Unit).Steady Eq 1 := by
  apply steady_alone
  intro s value rest read
  obtain ⟨_, ends, same⟩ := Option.map_eq_some_iff.mp read
  cases same
  exact (line_end_some s rest ends).2

section

variable {near : Chars → Chars → Prop} (linewise : Linewise near)

include linewise

theorem steady_newlines : (newlines.map fun _ => ()).Steady near 1 := by
  refine ⟨(steady_newline.many1.map fun _ => ()).takes, ?_⟩
  intro s t close
  have same := linewise.ends (skip s) (skip t) close
  rw [skip_skip, skip_skip] at same
  cases ends : lineEnd (skip s) with
  | none =>
      simp only [Matcher.map, newlines_miss _ ends, newlines_miss _ (same.mp ends), Option.map_none]
      exact .missed
  | some rest =>
      obtain ⟨left, there⟩ := Option.ne_none_iff_exists'.mp fun missed =>
        Option.some_ne_none rest (ends ▸ same.mpr missed)
      obtain ⟨values, after, read, cleared⟩ := newlines_take s rest ends
      obtain ⟨others, also, alsoRead, alsoCleared⟩ := newlines_take t left there
      have lines := linewise.clears (skip s) (skip t) close
      rw [clear_skip, clear_skip] at lines
      simp only [Matcher.map, read, alsoRead, Option.map_some]
      exact .found () after also (by rw [Matcher.Behind, cleared, alsoCleared]; exact lines)

theorem steady_line : line.Steady near 1 :=
  ((steady_instr linewise.toInStep).keepLeft_any (steady_newlines linewise)).weaken (by decide)

theorem steady_block : block.Steady near 1 := by
  have lines : (newlines.keepRight line.many).Steady near 1 :=
    (steady_newlines linewise).keepRight_any (steady_line linewise).many
  have parts := (steady_block_label linewise.toInStep).andThen
    (((steady_weight linewise.toInStep).option).andThen lines)
  exact ((parts.map _).named).weaken (by decide)

theorem steady_unclosed : unclosed.Steady near 1 := by
  have opening := steady_sign linewise.toInStep "\x7b" rfl
  have blocks := (steady_newlines linewise).keepRight_any (steady_block linewise).many1
  exact (((steady_header linewise.toInStep).andThen (opening.keepRight blocks)).map _).weaken (by decide)

end

-- The functions of a text that stand one behind the other, apart from gaps.
inductive Listed : Chars → List WrittenFunction → Prop where
  | done : Listed [] []
  | next (s rest : Chars) (first : WrittenFunction) (others : List WrittenFunction)
      (here : function.read s = some (first, rest)) (later : Listed (clear rest) others) : Listed s (first :: others)

theorem linewise_eq : Linewise Eq where
  toInStep := in_step_eq
  ends := fun _ _ same => by rw [same]
  clears := fun _ _ same => congrArg clear same

theorem steady_function : function.Steady Eq 1 := by
  have closing : (sign "\x7d").Steady Eq 0 := by
    apply steady_alone
    intro s value rest read
    obtain ⟨_, dropped, same⟩ := Option.map_eq_some_iff.mp read
    cases same
    have bound := drop_literal_length _ s rest dropped
    omega
  exact ((steady_unclosed linewise_eq).keepLeft closing).of_read function_read

theorem listed_iff (s : Chars) (functions : List WrittenFunction) : Listed s functions ↔
    match function.read s with
    | none => s = [] ∧ functions = []
    | some (first, rest) => ∃ others, functions = first :: others ∧ Listed (clear rest) others := by
  constructor
  · intro listed
    cases listed with
    | done =>
        cases read : function.read [] with
        | none => exact ⟨rfl, rfl⟩
        | some found => exact absurd (steady_function.takes [] found.1 found.2 read) (Nat.not_succ_le_zero _)
    | next _ rest first others here later =>
        rw [here]
        exact ⟨others, rfl, later⟩
  · intro told
    cases here : function.read s with
    | none =>
        rw [here] at told
        obtain ⟨rfl, rfl⟩ := told
        exact .done
    | some found =>
        rw [here] at told
        obtain ⟨others, rfl, later⟩ := told
        exact .next s found.2 found.1 others here later

-- A function and the line ends behind it.
def functionLines : Part WrittenFunction := function.keepLeft Matcher.newline.many

theorem steady_function_lines : functionLines.Steady Eq 1 := steady_function.keepLeft steady_newline.many

theorem function_lines_miss (s : Chars) (missed : function.read s = none) : functionLines.read s = none := by
  simp only [functionLines, Matcher.keepLeft, Matcher.map, and_then_read, missed, Option.bind_none, Option.map_none]

theorem function_lines_take (s rest : Chars) (first : WrittenFunction) (here : function.read s = some (first, rest)) :
    ∃ left, functionLines.read s = some (first, left) ∧ skip left = clear rest := by
  obtain ⟨values, left, read, cleared⟩ := line_ends_read rest
  refine ⟨left, ?_, cleared⟩
  simp only [functionLines, Matcher.keepLeft, Matcher.map, and_then_read, here, Option.bind_some, read, Option.map_some]

theorem lines_listed (fuel : Nat) (s : Chars) (functions : List WrittenFunction) (enough : s.length ≤ fuel) :
    ((functionLines.readMore fuel s).1 = functions ∧ skip (functionLines.readMore fuel s).2 = []) ↔
      Listed (skip s) functions := by
  induction fuel generalizing s functions with
  | zero =>
      have alone : Listed (skip []) functions ↔ functions = [] := by
        rw [listed_iff, show skip [] = [] from rfl, steady_function.misses_nil]
        exact and_iff_right rfl
      rw [List.eq_nil_of_length_eq_zero (Nat.le_zero.mp enough), alone]
      exact ⟨fun told => told.1.symm, fun absent => ⟨absent.symm, rfl⟩⟩
  | succ fuel ih =>
      rw [listed_iff]
      cases here : function.read (skip s) with
      | none =>
          simp only [readMore, function_lines_miss _ here]
          exact ⟨fun told => ⟨told.2, told.1.symm⟩, fun told => ⟨told.2.symm, told.1⟩⟩
      | some found =>
          obtain ⟨left, read, cleared⟩ := function_lines_take (skip s) found.2 found.1 here
          have shorter := steady_function_lines.takes (skip s) found.1 left read
          have bound := skip_bound s
          simp only [readMore, read]
          rw [← cleared]
          constructor
          · rintro ⟨rfl, ends⟩
            exact ⟨_, rfl, (ih left _ (by omega)).mp ⟨rfl, ends⟩⟩
          · rintro ⟨others, rfl, later⟩
            obtain ⟨same, ends⟩ := (ih left others (by omega)).mpr later
            exact ⟨congrArg (List.cons found.1) same, ends⟩

theorem program_listed (s : Chars) (functions : List WrittenFunction) :
    (∃ rest, program.read s = some (functions, rest)) ↔ Listed (clear s) functions := by
  obtain ⟨values, before, read, cleared⟩ := line_ends_read s
  obtain ⟨after, all, settled⟩ := steady_function_lines.many_read (clear s) (skip_clear s)
  have whole : program.read s = if (skip after).isEmpty
      then some ((functionLines.readMore (clear s).length (clear s)).1, skip after) else none := by
    have inner : (functionLines.many.keepLeft endOfInput).read (clear s) = if (skip after).isEmpty
        then some ((functionLines.readMore (clear s).length (clear s)).1, skip after) else none := by
      simp only [Matcher.keepLeft, Matcher.map, and_then_read, all, Option.bind_some, endOfInput, Matcher.named, atEnd]
      split <;> rfl
    rw [← inner, ← cleared]
    simp only [program, functionLines, Matcher.named, Matcher.keepRight, Matcher.map, and_then_read, done, read,
      Option.bind_some, Option.map_map, Function.comp_def, Option.map_id']
  have lines := lines_listed _ (clear s) functions (Nat.le_refl _)
  rw [skip_clear, ← settled] at lines
  rw [whole, ← lines]
  cases skip after with
  | nil => simp
  | cons c rest => simp

end Grammar

theorem read_ok_iff (text : Chars) (functions : List WrittenFunction) :
    read text = .ok functions ↔ Grammar.Listed (clear text) functions := by
  rw [← Grammar.program_listed, read]
  cases here : Grammar.program.read text with
  | none => simp
  | some found => simp [Prod.ext_iff]

end LoopDeps.Text
