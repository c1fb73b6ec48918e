import LoopDeps.Proofs.Text.Comparing
import LoopDeps.Proofs.Text.Lexing
set_option autoImplicit false

/- A lexeme depends on its own characters and on whether the next one goes on with it, so texts that go on in step give
   the same lexemes. -/
namespace LoopDeps.Text

-- A class without the characters of gaps.
abbrev Solid (member : Char → Bool) : Prop := ∀ c, isGap c = true → member c = false

theorem solid_of_name (member : Char → Bool) (inName : ∀ c, member c = true → isNameChar c = true) : Solid member := by
  intro c gap
  rw [Bool.eq_false_iff]
  intro inside
  have name := inName c inside
  simp only [isGap, isBlank, isLineEnd, Bool.or_eq_true, beq_iff_eq] at gap
  rcases gap with ((((rfl | rfl) | rfl) | (rfl | rfl)) | rfl) <;> revert name <;> decide

theorem digits_solid : Solid Char.isDigit := solid_of_name _ digit_in_name

theorem names_solid : Solid isNameChar := solid_of_name _ fun _ name => name

-- One or more characters without a gap.
def isLexeme (text : String) : Bool := !text.toList.isEmpty && !text.toList.any isGap

theorem lexeme_solid (text : String) (lexeme : isLexeme text = true) :
    (∀ c ∈ text.toList, isGap c = false) ∧ text.toList ≠ [] := by
  obtain ⟨filled, solid⟩ := Bool.and_eq_true_iff.mp lexeme
  exact ⟨by simpa using solid, by simpa using filled⟩

theorem idle_other (other : Char) (solid : isGap other = false) (s : Chars) (idle : Idle s) :
    ∀ c ∈ s.head?, c ≠ other :=
  fun c here => class_ne c isGap (idle c here) other solid

theorem class_idle (member : Char → Bool) (solid : Solid member) (s : Chars) (idle : Idle s) :
    s.takeWhile member = [] ∧ s.dropWhile member = s :=
  take_while_all member [] s nofun fun c here => solid c (idle c here)

section

variable {near : Chars → Chars → Prop} (inStep : InStep near)

include inStep

theorem class_agrees (member : Char → Bool) (solid : Solid member) (s t : Chars) (close : near s t) :
    s.takeWhile member = t.takeWhile member ∧ near (s.dropWhile member) (t.dropWhile member) := by
  induction s generalizing t with
  | nil =>
      rcases inStep.next [] t close with ⟨_, _, _, here, _⟩ | ⟨_, there⟩
      · cases here
      · obtain ⟨taken, dropped⟩ := class_idle member solid t there
        rw [taken, dropped]
        exact ⟨rfl, close⟩
  | cons c rest ih =>
      rcases inStep.next (c :: rest) t close with ⟨_, _, left, here, rfl, rests⟩ | ⟨here, there⟩
      · obtain ⟨rfl, rfl⟩ := List.cons.inj here
        cases inside : member c with
        | false =>
            simp only [List.takeWhile_cons, List.dropWhile_cons, inside, Bool.false_eq_true, if_false, true_and]
            exact close
        | true =>
            obtain ⟨taken, dropped⟩ := ih left rests
            simp only [List.takeWhile_cons, List.dropWhile_cons, inside, if_true, taken, true_and]
            exact dropped
      · obtain ⟨taken, dropped⟩ := class_idle member solid (c :: rest) here
        obtain ⟨alsoTaken, alsoDropped⟩ := class_idle member solid t there
        rw [taken, dropped, alsoTaken, alsoDropped]
        exact ⟨rfl, close⟩

theorem one_or_more_scans (member : Char → Bool) (solid : Solid member) : Scans near 1 (oneOrMore member) := by
  refine ⟨?_, ?_⟩
  · intro s text rest read
    obtain ⟨rfl, filled, _⟩ := one_or_more_sound member s text rest read
    have positive := List.length_pos_iff.mpr filled
    rw [List.length_append]
    omega
  · intro s t close
    obtain ⟨taken, dropped⟩ := class_agrees inStep member solid s t close
    unfold oneOrMore
    rw [taken]
    split
    · exact .missed
    · exact .found _ _ _ dropped

theorem start_then_scans (start member : Char → Bool) (startSolid : Solid start) (solid : Solid member) :
    Scans near 1 (startThen start member) := by
  refine ⟨?_, ?_⟩
  · intro s text rest read
    cases s with
    | nil => cases read
    | cons c more =>
        rw [startThen] at read
        split at read
        · cases read
          exact Nat.succ_le_succ (List.dropWhile_sublist member).length_le
        · cases read
  · intro s t close
    have missed : ∀ s, Idle s → startThen start member s = none := by
      intro s idle
      cases s with
      | nil => rfl
      | cons c more => rw [startThen, startSolid c (idle c rfl), if_neg Bool.false_ne_true]
    rcases inStep.next s t close with ⟨c, rest, left, rfl, rfl, rests⟩ | ⟨here, there⟩
    · obtain ⟨taken, dropped⟩ := class_agrees inStep member solid rest left rests
      rw [startThen, startThen, taken]
      split
      · exact .found _ _ _ dropped
      · exact .missed
    · rw [missed s here, missed t there]
      exact .missed

theorem sigil_scans (sigil : Char) (solid : isGap sigil = false) : Scans near 1 (sigilName sigil) := by
  have names := one_or_more_scans inStep isNameChar names_solid
  refine ⟨?_, ?_⟩
  · intro s text rest read
    cases s with
    | nil => cases read
    | cons c more =>
        rw [sigilName] at read
        split at read
        · exact Nat.le_succ_of_le (names.takes more text rest read)
        · cases read
  · intro s t close
    have missed : ∀ s, Idle s → sigilName sigil s = none := by
      intro s idle
      cases s with
      | nil => rfl
      | cons c more => rw [sigilName, if_neg (idle_other sigil solid _ idle c rfl)]
    rcases inStep.next s t close with ⟨c, rest, left, rfl, rfl, rests⟩ | ⟨here, there⟩
    · rw [sigilName, sigilName]
      split
      · exact names.agree rest left rests
      · exact .missed
    · rw [missed s here, missed t there]
      exact .missed

omit inStep in
theorem drop_literal_length (literal s rest : Chars) (read : dropLiteral literal s = some rest) :
    rest.length + literal.length = s.length := by
  induction literal generalizing s with
  | nil =>
      cases read
      rfl
  | cons l literal ih =>
      cases s with
      | nil => cases read
      | cons c more =>
          rw [dropLiteral] at read
          split at read
          · rw [List.length_cons, List.length_cons, ← ih more read, Nat.add_assoc]
          · cases read

theorem literal_agrees (literal : Chars) (solid : ∀ c ∈ literal, isGap c = false) (s t : Chars) (close : near s t) :
    Agree near ((dropLiteral literal s).map fun rest => ((), rest))
      ((dropLiteral literal t).map fun rest => ((), rest)) := by
  induction literal generalizing s t with
  | nil => exact .found () s t close
  | cons l literal ih =>
      have missed : ∀ s, Idle s → dropLiteral (l :: literal) s = none := by
        intro s idle
        cases s with
        | nil => rfl
        | cons c more =>
            rw [dropLiteral, if_neg (Ne.symm (idle_other l (solid l List.mem_cons_self) _ idle c rfl))]
      rcases inStep.next s t close with ⟨c, rest, left, rfl, rfl, rests⟩ | ⟨here, there⟩
      · rw [dropLiteral, dropLiteral]
        split
        · exact ih (fun c member => solid c (List.mem_cons_of_mem _ member)) rest left rests
        · exact .missed
      · rw [missed s here, missed t there]
        exact .missed

theorem head_agrees (member : Char → Bool) (solid : Solid member) (s t : Chars) (close : near s t) :
    s.head?.any member = t.head?.any member := by
  have missed : ∀ s, Idle s → s.head?.any member = false := by
    intro s idle
    cases s with
    | nil => rfl
    | cons c more => exact solid c (idle c rfl)
  rcases inStep.next s t close with ⟨c, rest, left, rfl, rfl, _⟩ | ⟨here, there⟩
  · rfl
  · rw [missed s here, missed t there]

-- One word that nothing extends.
def oneWord (extends? : Char → Bool) (word s : Chars) : Option (Chars × Chars) :=
  match dropLiteral word s with
  | none => none
  | some rest => if rest.head?.any extends? then none else some (word, rest)

omit inStep in
theorem word_of_eq (words : List String) (extends? : Char → Bool) (s : Chars) :
    wordOf words extends? s = words.findSome? fun word => oneWord extends? word.toList s := by
  unfold wordOf oneWord
  congr 1
  funext word
  cases dropLiteral word.toList s with
  | none => rfl
  | some rest => cases rest <;> rfl

theorem one_word_scans (extends? : Char → Bool) (solid : Solid extends?) (word : Chars)
    (wordSolid : ∀ c ∈ word, isGap c = false) : Scans near word.length (oneWord extends? word) := by
  refine ⟨?_, ?_⟩
  · intro s text rest read
    unfold oneWord at read
    split at read
    · cases read
    · rename_i left dropped
      split at read
      · cases read
      · cases read
        exact Nat.le_of_eq (drop_literal_length word s rest dropped)
  · intro s t close
    have dropped := literal_agrees inStep word wordSolid s t close
    unfold oneWord
    cases here : dropLiteral word s with
    | none =>
        have there : dropLiteral word t = none := by simpa [here] using dropped.none_iff
        rw [there]
        exact .missed
    | some rest =>
        obtain ⟨left, there, rests⟩ := dropped.some_left () rest (by rw [here]; rfl)
        have there : dropLiteral word t = some left := by simpa using there
        rw [there]
        dsimp only
        rw [head_agrees inStep extends? solid rest left rests]
        split
        · exact .missed
        · exact .found _ _ _ rests

theorem words_scan (words : List String) (extends? : Char → Bool) (solid : Solid extends?)
    (lexemes : words.all isLexeme = true) : Scans near 1 (wordOf words extends?) := by
  have each : ∀ word ∈ words, (∀ c ∈ word.toList, isGap c = false) ∧ word.toList ≠ [] := fun word member =>
    lexeme_solid word (List.all_eq_true.mp lexemes word member)
  clear lexemes
  refine ⟨?_, ?_⟩
  · intro s text rest read
    rw [word_of_eq] at read
    obtain ⟨word, member, here⟩ := List.exists_of_findSome?_eq_some read
    have bound := (one_word_scans inStep extends? solid word.toList (each word member).1).takes s text rest here
    have positive := List.length_pos_iff.mpr (each word member).2
    omega
  · intro s t close
    rw [word_of_eq, word_of_eq]
    induction words with
    | nil => exact .missed
    | cons word words ih =>
        have first := (one_word_scans inStep extends? solid word.toList (each word List.mem_cons_self).1).agree s t close
        rw [List.findSome?_cons, List.findSome?_cons]
        cases here : oneWord extends? word.toList s with
        | none =>
            rw [first.none_iff.mp here]
            exact ih fun other member => each other (List.mem_cons_of_mem _ member)
        | some found =>
            obtain ⟨left, there, rests⟩ := first.some_left found.1 found.2 here
            rw [there]
            exact .found _ _ _ rests

theorem int_scans : Scans near 1 intWord := by
  have digits := one_or_more_scans inStep Char.isDigit digits_solid
  have other : ∀ s : Chars, (∀ c ∈ s.head?, c ≠ 'i') → intWord s = none := by
    intro s differs
    unfold intWord
    split
    · exact absurd rfl (differs 'i' rfl)
    · rfl
  refine ⟨?_, ?_⟩
  · intro s text rest read
    unfold intWord at read
    split at read
    · exact Nat.le_succ_of_le (digits.takes _ text rest read)
    · cases read
  · intro s t close
    rcases inStep.next s t close with ⟨c, rest, left, rfl, rfl, rests⟩ | ⟨here, there⟩
    · by_cases same : c = 'i'
      · subst same
        exact digits.agree rest left rests
      · rw [other (c :: rest) (by simpa using same), other (c :: left) (by simpa using same)]
        exact .missed
    · rw [other s (idle_other 'i' rfl s here), other t (idle_other 'i' rfl t there)]
      exact .missed

-- The parts of a number that may be empty take the same from both texts.
theorem minus_agrees (s t : Chars) (close : near s t) :
    (minusSign s).1 = (minusSign t).1 ∧ near (minusSign s).2 (minusSign t).2 := by
  have other : ∀ s : Chars, (∀ c ∈ s.head?, c ≠ '-') → minusSign s = ([], s) :=
    fun s differs => minus_reads [] s (.inl rfl) differs
  rcases inStep.next s t close with ⟨c, rest, left, rfl, rfl, rests⟩ | ⟨here, there⟩
  · by_cases same : c = '-'
    · subst same
      exact ⟨rfl, rests⟩
    · rw [other (c :: rest) (by simpa using same), other (c :: left) (by simpa using same)]
      exact ⟨rfl, close⟩
  · rw [other s (idle_other '-' rfl s here), other t (idle_other '-' rfl t there)]
    exact ⟨rfl, close⟩

theorem any_sign_agrees (s t : Chars) (close : near s t) :
    (anySign s).1 = (anySign t).1 ∧ near (anySign s).2 (anySign t).2 := by
  have other : ∀ s : Chars, (∀ c ∈ s.head?, c ≠ '+') → anySign s = minusSign s := by
    intro s differs
    unfold anySign
    split
    · exact absurd rfl (differs '+' rfl)
    · rfl
  have minus := minus_agrees inStep s t close
  rcases inStep.next s t close with ⟨c, rest, left, rfl, rfl, rests⟩ | ⟨here, there⟩
  · by_cases same : c = '+'
    · subst same
      exact ⟨rfl, rests⟩
    · rw [other (c :: rest) (by simpa using same), other (c :: left) (by simpa using same)]
      exact minus
  · rw [other s (idle_other '+' rfl s here), other t (idle_other '+' rfl t there)]
    exact minus

theorem fraction_agrees (s t : Chars) (close : near s t) :
    (fraction s).1 = (fraction t).1 ∧ near (fraction s).2 (fraction t).2 := by
  have digits := one_or_more_scans inStep Char.isDigit digits_solid
  have other : ∀ s : Chars, (∀ c ∈ s.head?, c ≠ '.') → fraction s = ([], s) := by
    intro s differs
    unfold fraction
    split
    · exact absurd rfl (differs '.' rfl)
    · rfl
  rcases inStep.next s t close with ⟨c, rest, left, rfl, rfl, rests⟩ | ⟨here, there⟩
  · by_cases same : c = '.'
    · subst same
      cases here : oneOrMore Char.isDigit rest with
      | none =>
          simp only [fraction, here, (digits.agree rest left rests).none_iff.mp here, true_and]
          exact close
      | some found =>
          obtain ⟨after, there, ends⟩ := (digits.agree rest left rests).some_left found.1 found.2 here
          simp only [fraction, here, there, true_and]
          exact ends
    · rw [other (c :: rest) (by simpa using same), other (c :: left) (by simpa using same)]
      exact ⟨rfl, close⟩
  · rw [other s (idle_other '.' rfl s here), other t (idle_other '.' rfl t there)]
    exact ⟨rfl, close⟩

theorem exponent_agrees (s t : Chars) (close : near s t) :
    (exponent s).1 = (exponent t).1 ∧ near (exponent s).2 (exponent t).2 := by
  have digits := one_or_more_scans inStep Char.isDigit digits_solid
  have idle : ∀ s, Idle s → exponent s = ([], s) := by
    intro s idle
    have letters : Solid fun c => c == 'e' || c == 'E' := solid_of_name _ fun c letter => by
      rcases Bool.or_eq_true_iff.mp letter with small | big
      · rw [eq_of_beq small]
        rfl
      · rw [eq_of_beq big]
        rfl
    cases s with
    | nil => rfl
    | cons c rest => simp only [exponent, letters c (idle c rfl), Bool.false_eq_true, if_false]
  rcases inStep.next s t close with ⟨c, rest, left, rfl, rfl, rests⟩ | ⟨here, there⟩
  · obtain ⟨signs, afterSigns⟩ := any_sign_agrees inStep rest left rests
    rw [exponent, exponent]
    split
    · cases here : oneOrMore Char.isDigit (anySign rest).2 with
      | none =>
          simp only [here, (digits.agree _ _ afterSigns).none_iff.mp here, true_and]
          exact close
      | some found =>
          obtain ⟨after, there, ends⟩ := (digits.agree _ _ afterSigns).some_left found.1 found.2 here
          simp only [here, there, signs, true_and]
          exact ends
    · exact ⟨rfl, close⟩
  · rw [idle s here, idle t there]
    exact ⟨rfl, close⟩

theorem number_scans : Scans near 1 Text.number := by
  have digits := one_or_more_scans inStep Char.isDigit digits_solid
  refine ⟨?_, ?_⟩
  · intro s text rest read
    obtain ⟨rfl, minus, whole, part, power, rfl, _, ⟨filled, _⟩, _⟩ := number_sound s text rest read
    have positive := List.length_pos_iff.mpr filled
    simp only [List.length_append]
    omega
  · intro s t close
    obtain ⟨signs, unsigned⟩ := minus_agrees inStep s t close
    unfold Text.number
    dsimp only
    cases here : oneOrMore Char.isDigit (minusSign s).2 with
    | none =>
        rw [(digits.agree _ _ unsigned).none_iff.mp here]
        exact .missed
    | some found =>
        obtain ⟨left, there, rests⟩ := (digits.agree _ _ unsigned).some_left found.1 found.2 here
        obtain ⟨parts, afterPart⟩ := fraction_agrees inStep found.2 left rests
        obtain ⟨powers, ends⟩ := exponent_agrees inStep _ _ afterPart
        simp only [there, signs, parts, powers]
        exact .found _ _ _ ends

end

end LoopDeps.Text
