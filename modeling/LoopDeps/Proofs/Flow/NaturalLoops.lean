import LoopDeps.Flow.Loops
import LoopDeps.Proofs.Flow.Dominating
set_option autoImplicit false

/- The loop of a header is made of the blocks that get to one of its latches without passing it. The header
   dominates them all, no other block of the loop is entered from outside, and each leads to each inside the
   loop. -/
namespace LoopDeps.Flow

-- A block that closes a loop.
structure Latch (f : Func) (header latch : BlockId) : Prop where
  reached : Reached f latch
  edge : header ∈ f.succ latch
  dominated : Dominates f header latch

-- `b` gets to a latch without passing the header.
def Closes (f : Func) (header b : BlockId) : Prop :=
  ∃ latch way, Latch f header latch ∧ Path f.succ b latch way ∧ header ∉ way

-- The blocks of the loop of a header.
structure Gathered (f : Func) (header : BlockId) (blocks : List BlockId) : Prop where
  latched : ∃ latch, Latch f header latch
  members : ∀ b, b ∈ blocks ↔ b = header ∨ Reached f b ∧ Closes f header b
  increasing : blocks.Pairwise (· < ·)

theorem latch_header (f : Func) (header latch : BlockId) (latched : Latch f header latch) : Reached f header :=
  reached_step f latch header latched.reached latched.edge

section

variable (f : Func) (linked : f.Linked)

include linked

theorem is_reached_iff (b : BlockId) : (Shape.ofFunc f).isReached b = true ↔ Reached f b := by
  rw [← mem_reached f linked b]
  exact List.contains_iff_mem

theorem mem_latches (header latch : BlockId) :
    latch ∈ (Shape.ofFunc f).latches header ↔ Latch f header latch := by
  have parts : latch ∈ (Shape.ofFunc f).latches header ↔
      (latch ∈ f.prev header ∧ (Shape.ofFunc f).isReached latch = true) ∧
        (dominance f).dominates header latch = true := by
    rw [Shape.latches, Shape.reachedPrev, List.mem_filter, List.mem_filter]
    rfl
  have semantic : header ∈ f.succ latch → Reached f latch →
      ((dominance f).dominates header latch = true ↔ Dominates f header latch) := fun edge reached =>
    dominance_iff f linked header latch (f.succ_inside linked latch header edge) (reached_inside f linked latch reached)
  rw [parts, f.prev_iff_succ linked, is_reached_iff f linked]
  constructor
  · rintro ⟨⟨edge, reached⟩, dominated⟩
    exact ⟨reached, edge, (semantic edge reached).mp dominated⟩
  · rintro ⟨reached, edge, dominated⟩
    exact ⟨⟨edge, reached⟩, (semantic edge reached).mpr dominated⟩

-- What the walk back from a latch collects, read in the direction of control.
theorem walked_back_iff (header b latch : BlockId) (reached : Reached f latch) :
    (∃ way, Path (Shape.ofFunc f).reachedPrev latch b way ∧ ∀ c ∈ way, c ∉ [header]) ↔
      Reached f b ∧ ∃ way, Path f.succ b latch way ∧ header ∉ way := by
  have kept : (Shape.ofFunc f).isReached latch = true := (is_reached_iff f linked latch).mpr reached
  have apart : ∀ way : List BlockId, (∀ c ∈ way, c ∉ [header]) ↔ header ∉ way := by
    intro way
    simp only [List.mem_singleton, List.forall_mem_ne']
  constructor
  · rintro ⟨way, path, clear⟩
    obtain ⟨path, all⟩ := (path_filter f.prev (Shape.ofFunc f).isReached latch b way kept).mp path
    refine ⟨(is_reached_iff f linked b).mp (all b (path_last f.prev latch b way path)), way.reverse,
      path_along f linked latch b way path, ?_⟩
    rw [List.mem_reverse]
    exact (apart way).mp clear
  · rintro ⟨reachedFrom, way, path, new⟩
    have all : ∀ c ∈ way.reverse, (Shape.ofFunc f).isReached c = true := by
      intro c passed
      rw [is_reached_iff f linked]
      exact reached_along f b latch way reachedFrom path c (List.mem_reverse.mp passed)
    refine ⟨way.reverse, ?_, (apart way.reverse).mpr (by rw [List.mem_reverse]; exact new)⟩
    apply (path_filter f.prev (Shape.ofFunc f).isReached latch b way.reverse kept).mpr
    exact ⟨path_against f linked b latch way path, all⟩

theorem mem_walked (header b : BlockId) (inside : header < f.blocks.length) :
    b ∈ explore (Shape.ofFunc f).reachedPrev f.blocks.length ((Shape.ofFunc f).latches header) [header] ↔
      b = header ∨ Reached f b ∧ Closes f header b := by
  have edges : ∀ a, ∀ c ∈ (Shape.ofFunc f).reachedPrev a, c < f.blocks.length := by
    intro a c edge
    exact f.prev_inside linked c a (List.mem_filter.mp edge).1
  have roots : ∀ c ∈ (Shape.ofFunc f).latches header, c < f.blocks.length := by
    intro c member
    exact reached_inside f linked c ((mem_latches f linked header c).mp member).reached
  rw [mem_explore (Shape.ofFunc f).reachedPrev f.blocks.length edges f.blocks.length _ [header] roots
    (by simpa using inside) (by simp) (Nat.le_add_left _ _) b, List.mem_singleton]
  apply or_congr_right
  constructor
  · rintro ⟨latch, member, walked⟩
    have latched := (mem_latches f linked header latch).mp member
    obtain ⟨reached, way, path, new⟩ := (walked_back_iff f linked header b latch latched.reached).mp walked
    exact ⟨reached, latch, way, latched, path, new⟩
  · rintro ⟨reached, latch, way, latched, path, new⟩
    refine ⟨latch, (mem_latches f linked header latch).mpr latched, ?_⟩
    exact (walked_back_iff f linked header b latch latched.reached).mpr ⟨reached, way, path, new⟩

theorem mem_body (header b : BlockId) (reachedHeader : Reached f header) :
    b ∈ (Shape.ofFunc f).bodyOf header ↔ b = header ∨ Reached f b ∧ Closes f header b := by
  have inside := reached_inside f linked header reachedHeader
  have read : b ∈ (Shape.ofFunc f).bodyOf header ↔ b < f.blocks.length ∧
      b ∈ explore (Shape.ofFunc f).reachedPrev f.blocks.length ((Shape.ofFunc f).latches header) [header] := by
    rw [Shape.bodyOf, List.mem_filter, List.contains_iff_mem]
    exact and_congr_left' (f.mem_block_ids b)
  rw [read, mem_walked f linked header b inside]
  constructor
  · exact And.right
  · intro member
    refine ⟨?_, member⟩
    cases member with
    | inl same => exact same ▸ inside
    | inr closes => exact reached_inside f linked b closes.1

theorem mem_headers (header : BlockId) :
    header ∈ (Shape.ofFunc f).headers ↔ ∃ latch, Latch f header latch := by
  have parts : header ∈ (Shape.ofFunc f).headers ↔ header < f.blocks.length ∧
      Reached f header ∧ (Shape.ofFunc f).latches header ≠ [] := by
    rw [Shape.headers, List.mem_filter, Bool.and_eq_true, is_reached_iff f linked]
    simp only [Bool.not_eq_true', List.isEmpty_eq_false_iff, ne_eq]
    exact and_congr_left' (f.mem_block_ids header)
  rw [parts]
  constructor
  · rintro ⟨_, _, filled⟩
    obtain ⟨latch, member⟩ := List.exists_mem_of_ne_nil _ filled
    exact ⟨latch, (mem_latches f linked header latch).mp member⟩
  · rintro ⟨latch, latched⟩
    have reached := latch_header f header latch latched
    exact ⟨reached_inside f linked header reached, reached,
      List.ne_nil_of_mem ((mem_latches f linked header latch).mpr latched)⟩

theorem natural_loop_gathered (l : NaturalLoop) (member : l ∈ naturalLoops f) : Gathered f l.header l.blocks := by
  obtain ⟨header, listed, rfl⟩ := List.mem_map.mp member
  obtain ⟨latch, latched⟩ := (mem_headers f linked header).mp listed
  have reached := latch_header f header latch latched
  refine ⟨⟨latch, latched⟩, fun b => mem_body f linked header b reached, ?_⟩
  exact List.pairwise_lt_range.filter _

theorem natural_loop_of_latch (header latch : BlockId) (latched : Latch f header latch) :
    ∃ l ∈ naturalLoops f, l.header = header :=
  ⟨_, List.mem_map.mpr ⟨header, (mem_headers f linked header).mpr ⟨latch, latched⟩, rfl⟩, rfl⟩

end

theorem natural_headers_increasing (f : Func) : ((naturalLoops f).map NaturalLoop.header).Pairwise (· < ·) := by
  have read : (naturalLoops f).map NaturalLoop.header = (Shape.ofFunc f).headers := by
    simp [naturalLoops, Function.comp_def]
  rw [read]
  exact List.pairwise_lt_range.filter _

section

variable (f : Func) (header : BlockId) (blocks : List BlockId) (gathered : Gathered f header blocks)

include gathered

theorem gathered_header : header ∈ blocks := (gathered.members header).mpr (Or.inl rfl)

theorem gathered_reached (b : BlockId) (member : b ∈ blocks) : Reached f b := by
  cases (gathered.members b).mp member with
  | inl same =>
      obtain ⟨latch, latched⟩ := gathered.latched
      exact same ▸ latch_header f header latch latched
  | inr closes => exact closes.1

-- A way to the block goes on to a latch, which the header dominates.
theorem gathered_dominated (b : BlockId) (member : b ∈ blocks) : Dominates f header b := by
  intro entry way starts path
  cases (gathered.members b).mp member with
  | inl same => exact same ▸ path_last f.succ entry b way path
  | inr closes =>
      obtain ⟨_, latch, more, latched, rest, new⟩ := closes
      obtain ⟨whole, path, passed⟩ := path_trans f.succ entry b latch way more path rest
      exact ((passed header).mp (latched.dominated entry whole starts path)).resolve_right new

theorem gathered_back (a b : BlockId) (reached : Reached f a) (edge : b ∈ f.succ a) (member : b ∈ blocks)
    (other : b ≠ header) : a ∈ blocks := by
  obtain ⟨_, latch, way, latched, path, new⟩ := ((gathered.members b).mp member).resolve_left other
  by_cases same : a = header
  · exact same ▸ gathered_header f header blocks gathered
  · refine (gathered.members a).mpr (Or.inr ⟨reached, latch, a :: way, latched, .step a b latch way edge path, ?_⟩)
    simp [Ne.symm same, new]

theorem gathered_along (a b : BlockId) (way : List BlockId) (reached : Reached f a)
    (path : Path f.succ a b way) (member : b ∈ blocks) (new : header ∉ way) : way ⊆ blocks := by
  induction path with
  | here a => simpa using member
  | step a c b way edge path ih =>
      have later : header ∉ way := fun passed => new (List.mem_cons_of_mem a passed)
      have inside := ih (reached_step f a c reached edge) member later
      have first := path_first f.succ c b way path
      have other : c ≠ header := fun same => later (same ▸ first)
      exact List.cons_subset.mpr
        ⟨gathered_back f header blocks gathered a c reached edge (inside first) other, inside⟩

theorem gathered_from_header (b : BlockId) (member : b ∈ blocks) :
    ∃ way, Path f.succ header b way ∧ way ⊆ blocks := by
  obtain ⟨entry, whole, starts, path⟩ := gathered_reached f header blocks gathered b member
  have passed := gathered_dominated f header blocks gathered b member entry whole starts path
  obtain ⟨rest, path, new, _⟩ := path_after f.succ entry b header whole path passed
  have here := gathered_header f header blocks gathered
  have reached := gathered_reached f header blocks gathered header here
  refine ⟨header :: rest, path, List.cons_subset.mpr ⟨here, ?_⟩⟩
  generalize start : header :: rest = way at path
  cases path with
  | here => cases start; exact List.nil_subset blocks
  | step _ c _ _ edge path =>
      cases start
      exact gathered_along f header blocks gathered c b rest (reached_step f header c reached edge) path member new

theorem gathered_latch (latch : BlockId) (latched : Latch f header latch) : latch ∈ blocks := by
  by_cases self : latch = header
  · exact self ▸ gathered_header f header blocks gathered
  · refine (gathered.members latch).mpr (Or.inr ⟨latched.reached, latch, [latch], latched, .here latch, ?_⟩)
    simpa using Ne.symm self

theorem gathered_to_latch (a : BlockId) (member : a ∈ blocks) :
    ∃ latch way, Latch f header latch ∧ Path f.succ a latch way ∧ way ⊆ blocks := by
  cases (gathered.members a).mp member with
  | inl same =>
      obtain ⟨latch, latched⟩ := gathered.latched
      have closing := gathered_latch f header blocks gathered latch latched
      obtain ⟨way, path, inside⟩ := gathered_from_header f header blocks gathered latch closing
      exact ⟨latch, way, latched, same ▸ path, inside⟩
  | inr closes =>
      obtain ⟨reached, latch, way, latched, path, new⟩ := closes
      have closing := gathered_latch f header blocks gathered latch latched
      exact ⟨latch, way, latched, path, gathered_along f header blocks gathered a latch way reached path closing new⟩

theorem gathered_connected (a b : BlockId) (first : a ∈ blocks) (second : b ∈ blocks) :
    ∃ way, Path f.succ a b way ∧ 2 ≤ way.length ∧ ∀ c ∈ way, c ∈ blocks := by
  obtain ⟨latch, way, latched, path, inside⟩ := gathered_to_latch f header blocks gathered a first
  obtain ⟨more, rest, within⟩ := gathered_from_header f header blocks gathered b second
  refine ⟨way ++ more, path_join f.succ a latch header b way more path latched.edge rest, ?_, ?_⟩
  · have left := List.length_pos_of_mem (path_first f.succ a latch way path)
    have right := List.length_pos_of_mem (path_first f.succ header b more rest)
    rw [List.length_append]
    omega
  · exact fun c passed => (List.mem_append.mp passed).elim (fun p => inside p) (fun p => within p)

theorem gathered_entered (a b : BlockId) (reached : Reached f a) (outside : a ∉ blocks) (edge : b ∈ f.succ a)
    (member : b ∈ blocks) : b = header := by
  by_cases same : b = header
  · exact same
  · exact absurd (gathered_back f header blocks gathered a b reached edge member same) outside

end

end LoopDeps.Flow
