import LoopDeps.Text.Matcher
set_option autoImplicit false

/- What a matcher takes off the front of a text. Blanks in front of a part and behind it do not matter, so that parts
   compose without a word about them. -/
namespace LoopDeps.Text

def isBlank (c : Char) : Bool := c == ' ' || c == '\t' || c == ';'

theorem skip_solid (c : Char) (rest : Chars) (solid : isBlank c = false) : skip (c :: rest) = c :: rest := by
  obtain ⟨⟨space, tab⟩, comment⟩ : ((c == ' ') = false ∧ (c == '\t') = false) ∧ (c == ';') = false := by
    simpa only [isBlank, Bool.or_eq_false_iff] using solid
  simp only [skip, skipBlanks, space, tab, comment, Bool.or_self, Bool.false_eq_true, if_false]

theorem skip_length (comment : Bool) (s : Chars) : (skipBlanks comment s).length ≤ s.length := by
  induction s generalizing comment with
  | nil => exact Nat.le_refl _
  | cons c rest ih =>
      unfold skipBlanks
      split
      · split
        · exact Nat.le_refl _
        · exact Nat.le_succ_of_le (ih true)
      · split
        · exact Nat.le_succ_of_le (ih false)
        · split
          · exact Nat.le_succ_of_le (ih true)
          · exact Nat.le_refl _

theorem skip_again (comment : Bool) (s : Chars) : skip (skipBlanks comment s) = skipBlanks comment s := by
  induction s generalizing comment with
  | nil => rfl
  | cons c rest ih =>
      unfold skipBlanks
      split
      · split
        · rename_i ends
          apply skip_solid
          rcases Bool.or_eq_true_iff.mp ends with feed | carriage
          · rw [eq_of_beq feed]
            rfl
          · rw [eq_of_beq carriage]
            rfl
        · exact ih true
      · split
        · exact ih false
        · split
          · exact ih true
          · rename_i blank comment
            apply skip_solid
            simp only [isBlank, blank, comment, Bool.or_self]

theorem skip_skip (s : Chars) : skip (skip s) = skip s := skip_again false s

theorem skip_shorter (c : Char) (solid : isBlank c = false) (more rest : Chars) :
    (skip rest).length < (skip (c :: more ++ rest)).length := by
  rw [List.cons_append, skip_solid c _ solid, List.length_cons, List.length_append]
  have bound := skip_length false rest
  rw [← skip] at bound
  omega

namespace Matcher

variable {ρ α β : Type}

structure Takes (p : Matcher ρ α) (s : Chars) (value : α) (rest : Chars) : Prop where
  reads : ∃ left, p.read (skip s) = some (value, left) ∧ skip left = skip rest

structure Misses (p : Matcher ρ α) (s : Chars) : Prop where
  fails : p.read (skip s) = none

section

variable {p : Matcher ρ α} {q : Matcher ρ β} {s middle rest : Chars} {value : α} {second : β}

theorem Takes.of_read (read : p.read (skip s) = some (value, rest)) : p.Takes s value rest := ⟨rest, read, rfl⟩

theorem Takes.space (takes : p.Takes s value rest) : p.Takes (' ' :: s) value rest := ⟨takes.reads⟩

theorem Misses.space (misses : p.Misses s) : p.Misses (' ' :: s) := ⟨misses.fails⟩

theorem Takes.named {rule : ρ} (takes : p.Takes s value rest) : (Matcher.named rule p).Takes s value rest :=
  ⟨takes.reads⟩

theorem Misses.named {rule : ρ} (misses : p.Misses s) : (Matcher.named rule p).Misses s := ⟨misses.fails⟩

theorem Takes.map (f : α → β) (takes : p.Takes s value rest) : (p.map f).Takes s (f value) rest := by
  obtain ⟨left, read, same⟩ := takes
  exact ⟨left, by simp only [Matcher.map, read, Option.map_some], same⟩

theorem Misses.map (f : α → β) (misses : p.Misses s) : (p.map f).Misses s := by
  constructor
  simp only [Matcher.map, misses.fails, Option.map_none]

theorem Takes.andThen (first : p.Takes s value middle) (next : q.Takes middle second rest) :
    (p.andThen q).Takes s (value, second) rest := by
  obtain ⟨left, read, same⟩ := first
  obtain ⟨after, readNext, sameNext⟩ := next
  refine ⟨after, ?_, sameNext⟩
  simp only [Matcher.andThen, read, same, readNext, Option.map_some]

theorem Misses.andThen (misses : p.Misses s) (q : Matcher ρ β) : (p.andThen q).Misses s := by
  constructor
  simp only [Matcher.andThen, misses.fails]

theorem Takes.andThen_misses (first : p.Takes s value middle) (misses : q.Misses middle) : (p.andThen q).Misses s := by
  obtain ⟨left, read, same⟩ := first
  constructor
  simp only [Matcher.andThen, read, same, misses.fails, Option.map_none]

theorem Takes.keepLeft (first : p.Takes s value middle) (next : q.Takes middle second rest) :
    (p.keepLeft q).Takes s value rest := (first.andThen next).map Prod.fst

theorem Takes.keepRight (first : p.Takes s value middle) (next : q.Takes middle second rest) :
    (p.keepRight q).Takes s second rest := (first.andThen next).map Prod.snd

theorem Misses.keepLeft (misses : p.Misses s) (q : Matcher ρ β) : (p.keepLeft q).Misses s :=
  (misses.andThen q).map Prod.fst

theorem Misses.keepRight (misses : p.Misses s) (q : Matcher ρ β) : (p.keepRight q).Misses s :=
  (misses.andThen q).map Prod.snd

theorem Takes.keepLeft_misses (first : p.Takes s value middle) (misses : q.Misses middle) :
    (p.keepLeft q).Misses s := (first.andThen_misses misses).map Prod.fst

theorem Takes.orElse (takes : p.Takes s value rest) (q : Matcher ρ α) : (p.orElse q).Takes s value rest := by
  obtain ⟨left, read, same⟩ := takes
  exact ⟨left, by simp only [Matcher.orElse, read], same⟩

theorem Misses.orElse_takes {q : Matcher ρ α} (misses : p.Misses s) (takes : q.Takes s value rest) :
    (p.orElse q).Takes s value rest := by
  obtain ⟨left, read, same⟩ := takes
  exact ⟨left, by simp only [Matcher.orElse, misses.fails, read], same⟩

theorem Misses.orElse {q : Matcher ρ α} (first : p.Misses s) (second : q.Misses s) : (p.orElse q).Misses s := by
  constructor
  simp only [Matcher.orElse, first.fails, second.fails]

theorem takes_done (value : α) (s : Chars) : (done value : Matcher ρ α).Takes s value s :=
  ⟨skip s, rfl, skip_skip s⟩

theorem Takes.option (takes : p.Takes s value rest) : p.option.Takes s (some value) rest := (takes.map some).orElse _

theorem Takes.nested {step : Matcher ρ α → Matcher ρ α}
    (takes : (level step ((skip s).length + 1)).Takes s value rest) : (Matcher.nested step).Takes s value rest :=
  ⟨takes.reads⟩

theorem Misses.nested {step : Matcher ρ α → Matcher ρ α}
    (misses : (level step ((skip s).length + 1)).Misses s) : (Matcher.nested step).Misses s := ⟨misses.fails⟩

theorem Misses.many (misses : p.Misses s) : p.many.Takes s [] s := by
  refine ⟨skip s, ?_, skip_skip s⟩
  simp only [Matcher.many, misses.fails]

theorem Takes.many_once (takes : p.Takes s value rest) (stops : p.Misses rest) : p.many.Takes s [value] rest := by
  obtain ⟨left, read, same⟩ := takes
  refine ⟨left, ?_, same⟩
  have missed : p.read (skip left) = none := same ▸ stops.fails
  cases size : left.length <;> simp only [Matcher.many, read, size, readMore, missed]

theorem Misses.option (misses : p.Misses s) : p.option.Takes s none s := (misses.map some).orElse_takes (takes_done _ s)

end

-- A matcher and the texts of some items that it reads one after another, each where what follows fits.
structure Series (p : Matcher ρ α) (write : β → Chars) (value : β → α) (fits : Chars → Prop) (items : List β) : Prop where
  each : ∀ item ∈ items, ∀ rest, fits rest → p.Takes (write item ++ rest) (value item) rest
  follows : ∀ item ∈ items, ∀ rest, fits (write item ++ rest)
  shorter : ∀ item ∈ items, ∀ rest, (skip rest).length < (skip (write item ++ rest)).length

namespace Series

variable {p : Matcher ρ α} {write : β → Chars} {value : β → α} {fits : Chars → Prop} {items : List β}

theorem tail {item : β} (series : Series p write value fits (item :: items)) : Series p write value fits items where
  each := fun other member => series.each other (List.mem_cons_of_mem _ member)
  follows := fun other member => series.follows other (List.mem_cons_of_mem _ member)
  shorter := fun other member => series.shorter other (List.mem_cons_of_mem _ member)

theorem fits_all (series : Series p write value fits items) (after : Chars) (ends : fits after) :
    fits (items.flatMap write ++ after) := by
  cases items with
  | nil => exact ends
  | cons item rest =>
      rw [List.flatMap_cons, List.append_assoc]
      exact series.follows item List.mem_cons_self _

theorem length_le (series : Series p write value fits items) (after : Chars) :
    items.length ≤ (skip (items.flatMap write ++ after)).length := by
  induction items with
  | nil => exact Nat.zero_le _
  | cons item rest ih =>
      have shorter := series.shorter item List.mem_cons_self (rest.flatMap write ++ after)
      rw [List.flatMap_cons, List.append_assoc, List.length_cons]
      exact Nat.lt_of_le_of_lt (ih series.tail) shorter

theorem read_more (series : Series p write value fits items) (after : Chars) (ends : fits after) (stops : p.Misses after)
    (s : Chars) (here : skip s = skip (items.flatMap write ++ after)) (fuel : Nat) (enough : items.length ≤ fuel) :
    ∃ left, p.readMore fuel s = (items.map value, left) ∧ skip left = skip after := by
  induction items generalizing s fuel with
  | nil =>
      refine ⟨s, ?_, here⟩
      cases fuel with
      | zero => rfl
      | succ fuel =>
          have missed : p.read (skip s) = none := by
            rw [here]
            exact stops.fails
          simp only [readMore, missed, List.map_nil]
  | cons item rest ih =>
      cases fuel with
      | zero => exact absurd enough (Nat.not_succ_le_zero _)
      | succ fuel =>
          rw [List.flatMap_cons, List.append_assoc] at here
          obtain ⟨middle, read, same⟩ := series.each item List.mem_cons_self _ (series.tail.fits_all after ends)
          obtain ⟨left, others, last⟩ := ih series.tail middle same fuel (Nat.le_of_succ_le_succ enough)
          refine ⟨left, ?_, last⟩
          simp only [readMore, here, read, others, List.map_cons]

theorem many (series : Series p write value fits items) (after : Chars) (ends : fits after) (stops : p.Misses after) :
    p.many.Takes (items.flatMap write ++ after) (items.map value) after := by
  cases items with
  | nil => exact stops.many
  | cons item rest =>
      obtain ⟨middle, read, same⟩ := series.each item List.mem_cons_self _ (series.tail.fits_all after ends)
      have enough : rest.length ≤ middle.length := by
        have bound := series.tail.length_le after
        rw [← same] at bound
        exact Nat.le_trans bound (skip_length false middle)
      obtain ⟨left, others, last⟩ := series.tail.read_more after ends stops middle same middle.length enough
      refine ⟨left, ?_, last⟩
      simp only [Matcher.many, List.flatMap_cons, List.append_assoc, read, others, List.map_cons]

theorem many1 {item : β} (series : Series p write value fits (item :: items)) (after : Chars) (ends : fits after)
    (stops : p.Misses after) :
    p.many1.Takes ((item :: items).flatMap write ++ after) ((item :: items).map value) after := by
  rw [List.flatMap_cons, List.append_assoc]
  have first := series.each item List.mem_cons_self _ (series.tail.fits_all after ends)
  exact (first.andThen (series.tail.many after ends stops)).map _

end Series

-- A matcher that reads nothing unless the first character is one of some.
structure Leads (p : Matcher ρ α) (first : Char → Bool) : Prop where
  nil : p.read [] = none
  cons : ∀ c rest, first c = false → p.read (c :: rest) = none

section

variable {p : Matcher ρ α} {q : Matcher ρ β} {first : Char → Bool}

theorem Leads.misses_nil (leads : p.Leads first) : p.Misses [] := ⟨leads.nil⟩

theorem Leads.misses (leads : p.Leads first) (c : Char) (rest : Chars) (solid : isBlank c = false)
    (other : first c = false) : p.Misses (c :: rest) := by
  constructor
  rw [skip_solid c rest solid]
  exact leads.cons c rest other

theorem Leads.mono {more : Char → Bool} (leads : p.Leads first) (wider : ∀ c, more c = false → first c = false) :
    p.Leads more := ⟨leads.nil, fun c rest other => leads.cons c rest (wider c other)⟩

theorem Leads.named {rule : ρ} (leads : p.Leads first) : (Matcher.named rule p).Leads first :=
  ⟨leads.nil, leads.cons⟩

theorem Leads.map (f : α → β) (leads : p.Leads first) : (p.map f).Leads first := by
  refine ⟨?_, ?_⟩
  · simp only [Matcher.map, leads.nil, Option.map_none]
  · intro c rest other
    simp only [Matcher.map, leads.cons c rest other, Option.map_none]

theorem Leads.andThen (leads : p.Leads first) (q : Matcher ρ β) : (p.andThen q).Leads first := by
  refine ⟨?_, ?_⟩
  · simp only [Matcher.andThen, leads.nil]
  · intro c rest other
    simp only [Matcher.andThen, leads.cons c rest other]

theorem Leads.keepLeft (leads : p.Leads first) (q : Matcher ρ β) : (p.keepLeft q).Leads first :=
  (leads.andThen q).map Prod.fst

theorem Leads.keepRight (leads : p.Leads first) (q : Matcher ρ β) : (p.keepRight q).Leads first :=
  (leads.andThen q).map Prod.snd

theorem Leads.orElse {q : Matcher ρ α} {second : Char → Bool} (leads : p.Leads first) (others : q.Leads second) :
    (p.orElse q).Leads fun c => first c || second c := by
  refine ⟨?_, ?_⟩
  · simp only [Matcher.orElse, leads.nil, others.nil]
  · intro c rest other
    obtain ⟨noFirst, noSecond⟩ := Bool.or_eq_false_iff.mp other
    simp only [Matcher.orElse, leads.cons c rest noFirst, others.cons c rest noSecond]

end

end Matcher

end LoopDeps.Text
