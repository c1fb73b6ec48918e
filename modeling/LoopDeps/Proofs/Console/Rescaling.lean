import LoopDeps.Proofs.Console.Printing
import Mathlib.Data.List.Forall2
import Mathlib.Data.List.TakeWhile
set_option autoImplicit false

/- What becomes of a text whose indentation is rescaled. The text is cut into lines at its line feeds, and a line
   after as many bytes as it has leading spaces. Widths are any numbers, also those that no memory would hold. -/
namespace LoopDeps.Reindent

open Output

-- A text and its lines. Each is ended by a line feed, but the last may go without when it is not empty.
inductive Lined : Text → List Text → Prop
  | none : Lined [] []
  | last (l : Text) (filled : l ≠ []) (free : '\n' ∉ l) : Lined l [l]
  | next (l rest : Text) (ls : List Text) (free : '\n' ∉ l) (later : Lined rest ls) :
      Lined (l ++ '\n' :: rest) (l :: ls)

-- How many spaces lead a line, and what follows them.
structure Indented (l : Text) (spaces : Nat) (rest : Text) : Prop where
  whole : l = List.replicate spaces ' ' ++ rest
  ended : rest.head? ≠ some ' '

-- A line before and after. Every four leading spaces become so many, and those left over become none.
def Rescaled (columns : Nat) (old new : Text) : Prop :=
  ∃ spaces rest, Indented old spaces rest ∧ Indented new (spaces / 4 * columns) rest

def RescaledLines (columns : Nat) (old new : Text) : Prop :=
  ∃ olds news, Lined old olds ∧ Lined new news ∧ List.Forall₂ (Rescaled columns) olds news

-- What stands in a text from a byte on. Nothing does from inside a character or from beyond the end.
def fromByte? (text : String) (offset : Nat) : Option String :=
  if starts : String.Pos.Raw.IsValid text ⟨offset⟩ then some (text.sliceFrom (text.pos ⟨offset⟩ starts)).copy
  else none

-- The spaces are counted as characters, and the line is cut after as many bytes.
def cutLine? (columns : Nat) (l : Text) : Option String :=
  (fromByte? (String.ofList l) (leadingSpaces l)).map fun rest =>
    String.ofList (List.replicate (leadingSpaces l / 4 * columns) ' ') ++ rest ++ "\n"

def cut? (text : String) (columns : Nat) : Option String :=
  ((lines text.toList).mapM (cutLine? columns)).map String.join

theorem leading_indented (l : Text) : Indented l (leadingSpaces l) (l.dropWhile (· == ' ')) where
  whole := by
    have spaces : l.takeWhile (· == ' ') = List.replicate (leadingSpaces l) ' ' :=
      List.eq_replicate_iff.mpr ⟨rfl, fun c member => by simpa using List.mem_takeWhile_imp member⟩
    rw [← spaces, List.takeWhile_append_dropWhile]
  ended := by
    intro space
    have stops := List.head?_dropWhile_not (· == ' ') l
    rw [space] at stops
    cases stops

theorem spaces_size (spaces : Nat) : (String.ofList (List.replicate spaces ' ')).utf8ByteSize = spaces := by
  induction spaces with
  | zero => rfl
  | succ spaces ih =>
      have one : " ".utf8ByteSize = 1 := rfl
      simp [List.replicate_succ, String.ofList_cons, ih, one, Nat.add_comm]

theorem from_byte_append (before after : String) : fromByte? (before ++ after) before.utf8ByteSize = some after := by
  have starts : String.Pos.Raw.IsValid (before ++ after) before.rawEndPos :=
    String.Pos.Raw.isValid_iff_exists_append.mpr ⟨before, after, rfl, rfl⟩
  exact (dif_pos starts).trans (congrArg some String.Pos.splits_append_rawEndPos.copy_sliceFrom_eq)

-- A text is cut between characters and nowhere else.
theorem from_byte_iff (text after : String) (offset : Nat) :
    fromByte? text offset = some after ↔ ∃ before, text = before ++ after ∧ before.utf8ByteSize = offset := by
  constructor
  · intro found
    by_cases starts : String.Pos.Raw.IsValid text ⟨offset⟩
    · obtain ⟨before, later, rfl, place⟩ := String.Pos.Raw.isValid_iff_exists_append.mp starts
      cases place
      cases (from_byte_append before later).symm.trans found
      exact ⟨before, rfl, rfl⟩
    · rw [fromByte?, dif_neg starts] at found
      cases found
  · rintro ⟨before, rfl, rfl⟩
    exact from_byte_append before after

example : fromByte? "é" 1 = none := by decide

section

variable {l rest : Text} {spaces : Nat} (indented : Indented l spaces rest)

include indented

theorem leading_of_indented : leadingSpaces l = spaces := by
  have stops : rest.takeWhile (· == ' ') = [] := by
    have ended := indented.ended
    cases rest with
    | nil => rfl
    | cons c more => exact List.takeWhile_cons_of_neg fun space => ended (congrArg some (beq_iff_eq.mp space))
  have spaced : ∀ c ∈ List.replicate spaces ' ', (c == ' ') = true := fun c member =>
    beq_iff_eq.mpr (List.mem_replicate.mp member).2
  rw [leadingSpaces, indented.whole, List.takeWhile_append_of_pos spaced, stops, List.append_nil, List.length_replicate]

theorem rest_of_indented : l.dropWhile (· == ' ') = rest := by
  have whole := (leading_indented l).whole.symm.trans indented.whole
  rw [leading_of_indented indented] at whole
  exact List.append_cancel_left whole

-- A space is one byte long, so the cut comes where the spaces end.
theorem cut_after_spaces : fromByte? (String.ofList l) spaces = some (String.ofList rest) := by
  refine (from_byte_iff _ _ _).mpr ⟨String.ofList (List.replicate spaces ' '), ?_, spaces_size spaces⟩
  rw [← String.ofList_append, ← indented.whole]

end

theorem line_indented (columns : Nat) (l : Text) :
    Indented (line columns l) (leadingSpaces l / 4 * columns) (l.dropWhile (· == ' ')) :=
  ⟨rfl, (leading_indented l).ended⟩

theorem line_rescaled (columns : Nat) (l : Text) : Rescaled columns l (line columns l) :=
  ⟨_, _, leading_indented l, line_indented columns l⟩

-- Whole levels leave nothing over.
theorem line_line (levels width : Nat) (l : Text) :
    line width (line (4 * levels) l) = line (levels * width) l := by
  have again := line_indented (4 * levels) l
  have columns : leadingSpaces l / 4 * (4 * levels) / 4 * width = leadingSpaces l / 4 * (levels * width) := by
    rw [Nat.mul_left_comm, Nat.mul_div_cancel_left _ (by decide), Nat.mul_assoc]
  rw [line, leading_of_indented again, rest_of_indented again, columns]
  rfl

theorem ended_line_of_free (start : Text) (free : '\r' ∉ start) : endedLine start = start.reverse := by
  unfold endedLine
  split
  · exact absurd List.mem_cons_self free
  · rfl

theorem lines_from_append (l start rest : Text) (free : '\n' ∉ l) :
    linesFrom start (l ++ rest) = linesFrom (l.reverse ++ start) rest := by
  induction l generalizing start with
  | nil => rfl
  | cons c l ih =>
      have other : ¬(c == '\n') = true := fun same => free (beq_iff_eq.mp same ▸ List.mem_cons_self)
      have later := ih (c :: start) fun member => free (List.mem_cons_of_mem _ member)
      rw [List.cons_append, linesFrom, if_neg other, later, List.reverse_cons, List.append_assoc]
      rfl

-- A text has no other lines than these.
theorem lines_of_lined (text : Text) (ls : List Text) (lined : Lined text ls) (noReturn : '\r' ∉ text) :
    lines text = ls := by
  induction lined with
  | none => rfl
  | last l filled free =>
      have read := lines_from_append l [] [] free
      rw [List.append_nil, List.append_nil] at read
      rw [lines, read, linesFrom, List.reverse_reverse, List.isEmpty_reverse, List.isEmpty_eq_false_iff.mpr filled]
      rfl
  | next l rest ls free later ih =>
      have here : '\r' ∉ l.reverse := fun member => noReturn (List.mem_append_left _ (List.mem_reverse.mp member))
      have onwards := ih fun member => noReturn (List.mem_append_right _ (List.mem_cons_of_mem _ member))
      rw [lines, lines_from_append l [] _ free, List.append_nil, linesFrom, if_pos (beq_self_eq_true _),
        ended_line_of_free _ here, List.reverse_reverse, ← onwards, lines]

-- By what is left of the text. The line it stands in has been read in reverse so far.
theorem lines_from_lined (text start : Text) (free : '\n' ∉ start) (noReturn : '\r' ∉ start ++ text) :
    Lined (start.reverse ++ text) (linesFrom start text) := by
  induction text generalizing start with
  | nil =>
      rw [linesFrom, List.append_nil]
      split
      · rename_i empty
        rw [List.isEmpty_iff.mp empty]
        exact .none
      · rename_i filled
        refine .last _ (fun empty => filled ?_) (fun member => free (List.mem_reverse.mp member))
        rw [List.reverse_eq_nil_iff.mp empty]
        rfl
  | cons c rest ih =>
      rw [linesFrom]
      split
      · rename_i feed
        have here : '\r' ∉ start := fun member => noReturn (List.mem_append_left _ member)
        have later := ih [] List.not_mem_nil fun member =>
          noReturn (List.mem_append_right _ (List.mem_cons_of_mem _ member))
        rw [ended_line_of_free start here, beq_iff_eq.mp feed]
        exact .next _ _ _ (fun member => free (List.mem_reverse.mp member)) later
      · rename_i other
        have longer := ih (c :: start)
          (fun member => (List.mem_cons.mp member).elim (fun feed => other (beq_iff_eq.mpr feed.symm)) free)
          (fun member => noReturn (by simpa [or_left_comm] using member))
        rwa [List.reverse_cons, List.append_assoc] at longer

theorem lined_closed (ls : List Text) (free : ∀ l ∈ ls, '\n' ∉ l) : Lined (closed '\n' ls) ls := by
  induction ls with
  | nil => exact .none
  | cons l rest ih =>
      have later := ih fun other member => free other (List.mem_cons_of_mem _ member)
      rw [closed_cons]
      exact .next _ _ _ (free l List.mem_cons_self) later

theorem mem_of_lined (text : Text) (ls : List Text) (lined : Lined text ls) :
    ∀ l ∈ ls, ∀ c ∈ l, c ∈ text := by
  induction lined with
  | none => exact fun l member => (List.not_mem_nil member).elim
  | last l filled free =>
      intro other member c inside
      rwa [← List.mem_singleton.mp member]
  | next l rest ls free later ih =>
      intro other member c inside
      rcases List.mem_cons.mp member with rfl | further
      · exact List.mem_append_left _ inside
      · exact List.mem_append_right _ (List.mem_cons_of_mem _ (ih other further c inside))

section

variable (text : String) (noReturn : '\r' ∉ text.toList) (columns : Nat)

include noReturn

theorem lined_lines : Lined text.toList (lines text.toList) :=
  lines_from_lined text.toList [] List.not_mem_nil noReturn

theorem printed_no_return : ∀ l ∈ printed text columns, '\r' ∉ l := by
  intro l member
  obtain ⟨old, listed, rfl⟩ := List.mem_map.mp member
  exact line_free '\r' (by decide) columns old fun inside =>
    noReturn (mem_of_lined _ _ (lined_lines text noReturn) old listed _ inside)

-- What is written has the lines that were written.
theorem lines_reindent : lines (reindent text columns).toList = printed text columns := by
  rw [reindent_closed]
  refine lines_of_lined _ _ (lined_closed _ (printed_free text columns)) fun member => ?_
  obtain ⟨l, listed, inside⟩ := List.mem_flatMap.mp member
  rcases List.mem_append.mp inside with early | feed
  · exact printed_no_return text noReturn columns l listed early
  · exact absurd (List.mem_singleton.mp feed) (by decide)

theorem reindent_lines : RescaledLines columns text.toList (reindent text columns).toList := by
  refine ⟨lines text.toList, printed text columns, lined_lines text noReturn, ?_, ?_⟩
  · rw [reindent_closed]
    exact lined_closed _ (printed_free text columns)
  · rw [printed, List.forall₂_map_right_iff, List.forall₂_same]
    exact fun l _ => line_rescaled columns l

theorem reindent_reindent (levels width : Nat) :
    reindent (reindent text (4 * levels)) width = reindent text (levels * width) := by
  have twice : line width ∘ line (4 * levels) = line (levels * width) := funext (line_line levels width)
  have same : printed (reindent text (4 * levels)) width = printed text (levels * width) := by
    rw [printed, lines_reindent text noReturn, printed, List.map_map, twice, ← printed]
  apply String.toList_injective
  rw [reindent_closed, reindent_closed, same]

end

theorem cut_line (columns : Nat) (l : Text) : cutLine? columns l = some (String.ofList (line columns l ++ ['\n'])) := by
  rw [cutLine?, cut_after_spaces (leading_indented l), line, String.ofList_append, String.ofList_append]
  rfl

-- No cut falls inside a character.
theorem cut_reindents (text : String) (columns : Nat) : cut? text columns = some (reindent text columns) := by
  have each : cutLine? columns = fun l => pure (String.ofList (line columns l ++ ['\n'])) := funext (cut_line columns)
  have joined : String.join ((lines text.toList).map fun l => String.ofList (line columns l ++ ['\n'])) =
      reindent text columns := by
    apply String.toList_injective
    simp [reindent, String.toList_join, List.flatMap_map]
  rw [cut?, each, List.mapM_pure]
  exact congrArg some joined

-- A line that ends in carriage returns would lose one more of them each time.
theorem indentation_rescaled (text : String) (noReturn : '\r' ∉ text.toList) (columns : Nat) :
    cut? text columns = some (reindent text columns) ∧
      RescaledLines columns text.toList (reindent text columns).toList ∧
      reindent (reindent text 4) columns = reindent text columns ∧
      ∀ levels width, reindent (reindent text (4 * levels)) width = reindent text (levels * width) := by
  refine ⟨cut_reindents text columns, reindent_lines text noReturn columns, ?_, reindent_reindent text noReturn⟩
  have level := reindent_reindent text noReturn 1 columns
  rwa [Nat.mul_one, Nat.one_mul] at level

-- Indented by a level, by spaces alone, not at all, and by a space too many on a line that nothing ends.
def unevenText : String := "    é\n      \n\n         你"

theorem uneven_text_rescaled :
    '\r' ∉ unevenText.toList ∧ cut? unevenText 2 = some "  é\n  \n\n    你\n" ∧
      RescaledLines 2 unevenText.toList "  é\n  \n\n    你\n".toList ∧
      reindent (reindent unevenText 4) 2 = "  é\n  \n\n    你\n" ∧
      ∀ levels width, reindent (reindent unevenText (4 * levels)) width = reindent unevenText (levels * width) := by
  have noReturn : '\r' ∉ unevenText.toList := by decide
  have written : reindent unevenText 2 = "  é\n  \n\n    你\n" := by decide
  obtain ⟨cuts, byLine, levelled, composed⟩ := indentation_rescaled unevenText noReturn 2
  rw [written] at cuts byLine levelled
  exact ⟨noReturn, cuts, byLine, levelled, composed⟩

end LoopDeps.Reindent
