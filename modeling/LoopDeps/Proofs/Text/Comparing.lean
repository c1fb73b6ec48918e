import LoopDeps.Proofs.Text.Matching
set_option autoImplicit false

/- One matcher on two texts. If the texts differ in nothing that a lexeme could take, both readings fail, or both give
   the same value and leave two such texts again. -/
namespace LoopDeps.Text

-- A closing brace ends what stands within a line, as a blank or the end of the line does.
def isGap (c : Char) : Bool := isBlank c || isLineEnd c || c == '\x7d'

-- No lexeme within a line starts or goes on here.
def Idle (s : Chars) : Prop := ∀ c ∈ s.head?, isGap c = true

-- A relation between texts that go on with the same character or are both idle.
structure InStep (near : Chars → Chars → Prop) : Prop where
  next : ∀ s t, near s t → (∃ c r u, s = c :: r ∧ t = c :: u ∧ near r u) ∨ Idle s ∧ Idle t
  skips : ∀ s t, near s t → near (skip s) (skip t)

theorem in_step_eq : InStep Eq := by
  refine ⟨?_, ?_⟩
  · rintro s _ rfl
    cases s with
    | nil => exact .inr ⟨nofun, nofun⟩
    | cons c rest => exact .inl ⟨c, rest, rest, rfl, rfl, rfl⟩
  · rintro s _ rfl
    rfl

theorem skip_bound (s : Chars) : (skip s).length ≤ s.length := skip_length false s

inductive Agree {α : Type} (near : Chars → Chars → Prop) : Option (α × Chars) → Option (α × Chars) → Prop where
  | missed : Agree near none none
  | found (value : α) (rest left : Chars) (close : near rest left) :
      Agree near (some (value, rest)) (some (value, left))

section

variable {α β : Type} {near : Chars → Chars → Prop} {first second : Option (α × Chars)}
  (agree : Agree near first second)

include agree

theorem Agree.map (f : α → β) :
    Agree near (first.map fun pair => (f pair.1, pair.2)) (second.map fun pair => (f pair.1, pair.2)) := by
  cases agree with
  | missed => exact .missed
  | found value rest left close => exact .found (f value) rest left close

theorem Agree.mono {wider : Chars → Chars → Prop} (more : ∀ s t, near s t → wider s t) :
    Agree wider first second := by
  cases agree with
  | missed => exact .missed
  | found value rest left close => exact .found value rest left (more rest left close)

theorem Agree.none_iff : first = none ↔ second = none := by
  cases agree <;> simp

theorem Agree.some_left (value : α) (rest : Chars) (read : first = some (value, rest)) :
    ∃ left, second = some (value, left) ∧ near rest left := by
  subst read
  cases agree with
  | found _ _ left close => exact ⟨left, rfl, close⟩

end

-- What a scanner takes off the front of two such texts.
structure Scans {α : Type} (near : Chars → Chars → Prop) (least : Nat) (scan : Chars → Option (α × Chars)) :
    Prop where
  takes : ∀ s value rest, scan s = some (value, rest) → rest.length + least ≤ s.length
  agree : ∀ s t, near s t → Agree near (scan s) (scan t)

namespace Matcher

variable {ρ α β : Type}

-- Nothing is said of the blanks in front.
def Behind (near : Chars → Chars → Prop) (s t : Chars) : Prop := near (skip s) (skip t)

-- The same for a matcher, which is entered behind blanks and may leave some.
structure Steady (near : Chars → Chars → Prop) (least : Nat) (p : Matcher ρ α) : Prop where
  takes : ∀ s value rest, p.read s = some (value, rest) → rest.length + least ≤ s.length
  agree : ∀ s t, Behind near s t → Agree (Behind near) (p.read (skip s)) (p.read (skip t))

theorem behind_skip (near : Chars → Chars → Prop) (s t : Chars) (close : Behind near s t) :
    Behind near (skip s) (skip t) := by
  rw [Behind, skip_skip, skip_skip]
  exact close

section

variable {near : Chars → Chars → Prop} (inStep : InStep near) {p : Matcher ρ α} {q : Matcher ρ β} {least more : Nat}

theorem Steady.weaken (steady : p.Steady near least) (fewer : more ≤ least) : p.Steady near more :=
  ⟨fun s value rest read => Nat.le_trans (Nat.add_le_add_left fewer _) (steady.takes s value rest read), steady.agree⟩

theorem Steady.named {rule : ρ} (steady : p.Steady near least) : (Matcher.named rule p).Steady near least :=
  ⟨steady.takes, steady.agree⟩

theorem Steady.map (f : α → β) (steady : p.Steady near least) : (p.map f).Steady near least := by
  refine ⟨?_, fun s t close => (steady.agree s t close).map f⟩
  intro s value rest read
  obtain ⟨⟨inner, left⟩, here, same⟩ := Option.map_eq_some_iff.mp read
  cases same
  exact steady.takes s inner rest here

theorem Steady.andThen (first : p.Steady near least) (second : q.Steady near more) :
    (p.andThen q).Steady near (least + more) := by
  refine ⟨?_, ?_⟩
  · intro s value rest read
    cases here : p.read s with
    | none => simp [Matcher.andThen, here] at read
    | some found =>
        simp only [Matcher.andThen, here] at read
        obtain ⟨⟨other, left⟩, there, same⟩ := Option.map_eq_some_iff.mp read
        cases same
        have before := first.takes s found.1 found.2 here
        have behind := second.takes (skip found.2) other left there
        have bound : left.length + (least + more) ≤ s.length := by
          have blanks := skip_bound found.2
          omega
        exact bound
  · intro s t close
    cases here : p.read (skip s) with
    | none =>
        have there := (first.agree s t close).none_iff.mp here
        simpa only [Matcher.andThen, here, there] using Agree.missed
    | some found =>
        obtain ⟨left, there, rests⟩ := (first.agree s t close).some_left found.1 found.2 here
        simpa only [Matcher.andThen, here, there] using (second.agree found.2 left rests).map _

theorem read_then_same {q other : Matcher ρ β} (s : Chars)
    (same : ∀ value rest, p.read s = some (value, rest) → q.read (skip rest) = other.read (skip rest)) :
    (p.andThen q).read s = (p.andThen other).read s := by
  cases here : p.read s with
  | none => simp only [Matcher.andThen, here]
  | some found => simp only [Matcher.andThen, here, same found.1 found.2 here]

theorem Steady.keepLeft (first : p.Steady near least) (second : q.Steady near more) :
    (p.keepLeft q).Steady near (least + more) := (first.andThen second).map Prod.fst

theorem Steady.keepRight (first : p.Steady near least) (second : q.Steady near more) :
    (p.keepRight q).Steady near (least + more) := (first.andThen second).map Prod.snd

theorem Steady.of_read {other : Matcher ρ α} (same : ∀ s, other.read s = p.read s) (steady : p.Steady near least) :
    other.Steady near least := by
  refine ⟨?_, ?_⟩
  · intro s value rest read
    exact steady.takes s value rest (same s ▸ read)
  · intro s t close
    rw [same, same]
    exact steady.agree s t close

-- The value of a part that is dropped need not be the same on both sides.
theorem Steady.keepLeft_any (first : p.Steady near least) (second : (q.map fun _ => ()).Steady near more) :
    (p.keepLeft q).Steady near (least + more) := by
  refine (first.keepLeft second).of_read fun s => ?_
  cases here : p.read s <;> simp [Matcher.keepLeft, Matcher.andThen, Matcher.map, here, Function.comp_def]

theorem Steady.keepRight_any (first : (p.map fun _ => ()).Steady near least) (second : q.Steady near more) :
    (p.keepRight q).Steady near (least + more) := by
  refine (first.keepRight second).of_read fun s => ?_
  cases here : p.read s <;> simp [Matcher.keepRight, Matcher.andThen, Matcher.map, here, Function.comp_def]

theorem Steady.orElse {q : Matcher ρ α} (first : p.Steady near least) (second : q.Steady near least) :
    (p.orElse q).Steady near least := by
  refine ⟨?_, ?_⟩
  · intro s value rest read
    cases here : p.read s with
    | none => exact second.takes s value rest (by simpa only [Matcher.orElse, here] using read)
    | some found => exact first.takes s value rest (by simpa only [Matcher.orElse, here] using read)
  · intro s t close
    cases here : p.read (skip s) with
    | none =>
        have there := (first.agree s t close).none_iff.mp here
        simpa only [Matcher.orElse, here, there] using second.agree s t close
    | some found =>
        obtain ⟨left, there, rests⟩ := (first.agree s t close).some_left found.1 found.2 here
        simpa only [Matcher.orElse, here, there] using Agree.found found.1 found.2 left rests

theorem steady_done (value : α) : (done value : Matcher ρ α).Steady near 0 := by
  refine ⟨?_, fun s t close => .found value (skip s) (skip t) (behind_skip near s t close)⟩
  intro s value rest read
  cases read
  exact Nat.le_refl _

-- One text is in step with itself.
theorem steady_alone (takes : ∀ s value rest, p.read s = some (value, rest) → rest.length + least ≤ s.length) :
    p.Steady Eq least := by
  refine ⟨takes, ?_⟩
  intro s t same
  rw [show skip s = skip t from same]
  cases p.read (skip t) with
  | none => exact .missed
  | some found => exact .found found.1 found.2 found.2 rfl

theorem Steady.option (steady : p.Steady near least) : p.option.Steady near 0 :=
  ((steady.map some).weaken (Nat.zero_le _)).orElse (steady_done none)

theorem Steady.misses_nil (steady : p.Steady near (least + 1)) : p.read [] = none := by
  cases read : p.read [] with
  | none => rfl
  | some found =>
      have bound := steady.takes [] found.1 found.2 read
      simp at bound

theorem read_more_stops (fuel : Nat) (s : Chars) (missed : p.read (skip s) = none) : p.readMore fuel s = ([], s) := by
  cases fuel with
  | zero => rfl
  | succ fuel => simp only [readMore, missed]

-- As many rounds as there are characters are enough for either text.
theorem Steady.read_more (steady : p.Steady near (least + 1)) (fuel other : Nat) (s t : Chars) (close : Behind near s t)
    (enough : s.length ≤ fuel) (alsoEnough : t.length ≤ other) :
    (p.readMore fuel s).1 = (p.readMore other t).1 ∧ Behind near (p.readMore fuel s).2 (p.readMore other t).2 := by
  have ended : ∀ s : Chars, s.length ≤ 0 → p.read (skip s) = none := by
    intro s empty
    rw [List.eq_nil_of_length_eq_zero (Nat.le_zero.mp empty)]
    exact steady.misses_nil
  induction fuel generalizing other s t with
  | zero =>
      have here := ended s enough
      rw [read_more_stops 0 s here, read_more_stops other t ((steady.agree s t close).none_iff.mp here)]
      exact ⟨rfl, close⟩
  | succ fuel ih =>
      cases here : p.read (skip s) with
      | none =>
          rw [read_more_stops _ s here, read_more_stops other t ((steady.agree s t close).none_iff.mp here)]
          exact ⟨rfl, close⟩
      | some found =>
          obtain ⟨left, there, rests⟩ := (steady.agree s t close).some_left found.1 found.2 here
          have shorter : ∀ s value rest, p.read (skip s) = some (value, rest) → rest.length + 1 ≤ s.length := by
            intro s value rest read
            have bound := steady.takes (skip s) value rest read
            have blanks := skip_bound s
            omega
          cases other with
          | zero =>
              rw [ended t alsoEnough] at there
              cases there
          | succ other =>
              have inHere := shorter s found.1 found.2 here
              have inThere := shorter t found.1 left there
              obtain ⟨values, close⟩ := ih other found.2 left rests (by omega) (by omega)
              simp only [readMore, here, there]
              exact ⟨congrArg (List.cons found.1) values, close⟩

theorem Steady.read_more_takes (steady : p.Steady near least) (fuel : Nat) (s : Chars) :
    (p.readMore fuel s).2.length ≤ s.length := by
  induction fuel generalizing s with
  | zero => exact Nat.le_refl _
  | succ fuel ih =>
      cases here : p.read (skip s) with
      | none => simp only [readMore, here, Nat.le_refl]
      | some found =>
          simp only [readMore, here]
          have bound := steady.takes (skip s) found.1 found.2 here
          have blanks := skip_bound s
          have later := ih found.2
          omega

theorem Steady.many (steady : p.Steady near (least + 1)) : p.many.Steady near 0 := by
  refine ⟨?_, ?_⟩
  · intro s value rest read
    cases here : p.read s with
    | none =>
        simp only [Matcher.many, here] at read
        cases read
        exact Nat.le_refl _
    | some found =>
        simp only [Matcher.many, here] at read
        cases read
        have bound := steady.takes s found.1 found.2 here
        have later := steady.read_more_takes found.2.length found.2
        omega
  · intro s t close
    cases here : p.read (skip s) with
    | none =>
        have there := (steady.agree s t close).none_iff.mp here
        simpa only [Matcher.many, here, there] using Agree.found [] (skip s) (skip t) (behind_skip near s t close)
    | some found =>
        obtain ⟨left, there, rests⟩ := (steady.agree s t close).some_left found.1 found.2 here
        obtain ⟨values, close⟩ := steady.read_more found.2.length left.length found.2 left rests (Nat.le_refl _)
          (Nat.le_refl _)
        simp only [Matcher.many, here, there, values]
        exact .found _ _ _ close

theorem Steady.many_read (steady : p.Steady Eq (least + 1)) (s : Chars) (settled : skip s = s) :
    ∃ left, p.many.read s = some ((p.readMore s.length s).1, left) ∧ skip left = skip (p.readMore s.length s).2 := by
  cases here : p.read s with
  | none =>
      rw [read_more_stops _ s (settled.symm ▸ here)]
      exact ⟨s, by simp only [Matcher.many, here], rfl⟩
  | some found =>
      have shorter := steady.takes s found.1 found.2 here
      obtain ⟨fuel, size⟩ : ∃ fuel, s.length = fuel + 1 := ⟨s.length - 1, by omega⟩
      obtain ⟨values, close⟩ := steady.read_more found.2.length fuel found.2 found.2 rfl (Nat.le_refl _) (by omega)
      refine ⟨(p.readMore found.2.length found.2).2, ?_, ?_⟩
      · simp only [Matcher.many, here, size, readMore, settled, values]
      · simp only [size, readMore, settled, here]
        exact close

theorem Steady.many1 (steady : p.Steady near (least + 1)) : p.many1.Steady near (least + 1) :=
  (steady.andThen steady.many).map _

include inStep in
theorem steady_scanner {scan : Scanner} (scans : Scans near least scan) :
    (ofScanner scan : Matcher ρ String).Steady near least := by
  refine ⟨?_, fun s t close => ((scans.agree _ _ close).mono inStep.skips).map _⟩
  intro s value rest read
  obtain ⟨⟨lexeme, left⟩, here, same⟩ := Option.map_eq_some_iff.mp read
  cases same
  exact scans.takes s lexeme rest here

end

end Matcher

end LoopDeps.Text
