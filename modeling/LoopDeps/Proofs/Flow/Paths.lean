import LoopDeps.IR.Instr
set_option autoImplicit false

/- Ways through a graph of blocks, kept as the list of the blocks they pass, both ends included. A way can be
   cut at each block it passes, and ways that meet can be joined. -/
namespace LoopDeps.Flow

inductive Path (next : BlockId → List BlockId) : BlockId → BlockId → List BlockId → Prop where
  | here (a : BlockId) : Path next a a [a]
  | step (a b c : BlockId) (way : List BlockId) (edge : b ∈ next a) (rest : Path next b c way) :
      Path next a c (a :: way)

section

variable (next : BlockId → List BlockId)

theorem path_head (a c b : BlockId) (rest : List BlockId) (path : Path next a c (b :: rest)) : b = a := by
  cases path <;> rfl

theorem path_first (a c : BlockId) (way : List BlockId) (path : Path next a c way) : a ∈ way := by
  cases path <;> exact List.mem_cons_self

theorem path_last (a c : BlockId) (way : List BlockId) (path : Path next a c way) : c ∈ way := by
  induction path with
  | here a => exact List.mem_cons_self
  | step a b c way _ _ ih => exact List.mem_cons_of_mem a ih

theorem path_join (a b c d : BlockId) (way more : List BlockId) (path : Path next a b way) (edge : c ∈ next b)
    (rest : Path next c d more) : Path next a d (way ++ more) := by
  induction path with
  | here a => exact .step a c d more edge rest
  | step a b' b way first _ ih => exact .step a b' d (way ++ more) first (ih edge)

theorem path_split (a c d : BlockId) (before after : List BlockId) (path : Path next a c (before ++ d :: after)) :
    Path next a d (before ++ [d]) ∧ Path next d c (d :: after) := by
  induction before generalizing a with
  | nil =>
      cases path_head next a c d after path
      exact ⟨.here d, path⟩
  | cons b before ih =>
      cases path_head next a c b (before ++ d :: after) path
      generalize whole : b :: before ++ d :: after = way at path
      cases path with
      | here => simp at whole
      | step _ e _ rest edge path =>
          cases (List.cons.inj whole).2
          have parts := ih e path
          exact ⟨.step b e d (before ++ [d]) edge parts.1, parts.2⟩

-- The last step of a way that has one.
theorem path_last_step (a c : BlockId) (before : List BlockId) (filled : before ≠ [])
    (path : Path next a c (before ++ [c])) : ∃ b ∈ before, c ∈ next b ∧ Path next a b before := by
  induction before generalizing a with
  | nil => exact absurd rfl filled
  | cons b before ih =>
      cases path_head next a c b (before ++ [c]) path
      generalize whole : b :: before ++ [c] = way at path
      cases path with
      | here => simp at whole
      | step _ e _ rest edge path =>
          cases (List.cons.inj whole).2
          cases before with
          | nil =>
              cases path_head next e c c [] path
              exact ⟨b, List.mem_cons_self, edge, .here b⟩
          | cons d before =>
              obtain ⟨last, member, step, path⟩ := ih e (List.cons_ne_nil d before) path
              exact ⟨last, List.mem_cons_of_mem b member, step, .step b e last (d :: before) edge path⟩

theorem path_from (a c d : BlockId) (way : List BlockId) (path : Path next a c way) (passed : d ∈ way) :
    ∃ rest, Path next d c rest ∧ rest ⊆ way := by
  obtain ⟨before, after, rfl⟩ := List.append_of_mem passed
  exact ⟨d :: after, (path_split next a c d before after path).2, List.subset_append_right before (d :: after)⟩

-- The way up to the first visit of a block.
theorem path_until (a c d : BlockId) (way : List BlockId) (path : Path next a c way) (passed : d ∈ way) :
    ∃ before, Path next a d (before ++ [d]) ∧ d ∉ before ∧ before ⊆ way := by
  obtain ⟨before, after, rfl, new⟩ := List.eq_append_cons_of_mem passed
  exact ⟨before, (path_split next a c d before after path).1, new, List.subset_append_left before (d :: after)⟩

-- The way from the last visit of a block on.
theorem path_after (a c d : BlockId) (way : List BlockId) (path : Path next a c way) (passed : d ∈ way) :
    ∃ rest, Path next d c (d :: rest) ∧ d ∉ rest ∧ rest ⊆ way := by
  induction path with
  | here a =>
      cases List.mem_singleton.mp passed
      exact ⟨[], .here d, List.not_mem_nil, List.nil_subset [d]⟩
  | step a b c way edge path ih =>
      by_cases again : d ∈ way
      · obtain ⟨rest, path, left, inside⟩ := ih again
        exact ⟨rest, path, left, List.subset_cons_of_subset a inside⟩
      · cases (List.mem_cons.mp passed).resolve_right again
        exact ⟨way, .step d b c way edge path, again, List.subset_cons_self d way⟩

theorem path_trans (a b c : BlockId) (way more : List BlockId) (path : Path next a b way)
    (rest : Path next b c more) : ∃ whole, Path next a c whole ∧ ∀ d, d ∈ whole ↔ d ∈ way ∨ d ∈ more := by
  induction path with
  | here a =>
      refine ⟨more, rest, fun d => ?_⟩
      have first := path_first next a c more rest
      by_cases same : d = a
      · simp [same, first]
      · simp [same]
  | step a b' b way edge _ ih =>
      obtain ⟨whole, path, members⟩ := ih rest
      exact ⟨a :: whole, .step a b' c whole edge path, fun d => by simp [members, or_assoc]⟩

theorem path_reverse (back : BlockId → List BlockId) (turned : ∀ a b, b ∈ next a → a ∈ back b) (a c : BlockId)
    (way : List BlockId) (path : Path next a c way) : Path back c a way.reverse := by
  induction path with
  | here a => exact .here a
  | step a b c way edge _ ih =>
      rw [List.reverse_cons]
      exact path_join back c b a a way.reverse [a] ih (turned a b edge) (.here a)

-- A graph cut down to some blocks keeps exactly the ways through them.
theorem path_filter (keep : BlockId → Bool) (a c : BlockId) (way : List BlockId) (kept : keep a = true) :
    Path (fun b => (next b).filter keep) a c way ↔ Path next a c way ∧ ∀ d ∈ way, keep d = true := by
  constructor
  · intro path
    induction path with
    | here a => exact ⟨.here a, by simp [kept]⟩
    | step a b c way edge _ ih =>
        obtain ⟨edge, keptNext⟩ := List.mem_filter.mp edge
        obtain ⟨path, all⟩ := ih keptNext
        exact ⟨.step a b c way edge path, List.forall_mem_cons.mpr ⟨kept, all⟩⟩
  · rintro ⟨path, all⟩
    induction path with
    | here a => exact .here a
    | step a b c way edge path ih =>
        have later := (List.forall_mem_cons.mp all).2
        have keptNext := later b (path_first next b c way path)
        exact .step a b c way (List.mem_filter.mpr ⟨edge, keptNext⟩) (ih keptNext later)

end

end LoopDeps.Flow
