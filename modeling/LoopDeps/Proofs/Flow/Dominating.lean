import LoopDeps.Flow.Dominance
import LoopDeps.Proofs.Flow.Exploring
import LoopDeps.Proofs.IR.Linking
set_option autoImplicit false

/- The blocks that are out of reach once a block is taken away are those that no way leads to without passing
   it. So dominance as it is computed is dominance by ways, in both directions of control. -/
namespace LoopDeps.Flow

def Reached (f : Func) (b : BlockId) : Prop :=
  ∃ entry way, f.entry? = some entry ∧ Path f.succ entry b way

-- Every way from the entry to `b` passes `a`.
def Dominates (f : Func) (a b : BlockId) : Prop :=
  ∀ entry way, f.entry? = some entry → Path f.succ entry b way → a ∈ way

-- Every way from `b` to a block without successors passes `a`.
def PostDominates (f : Func) (a b : BlockId) : Prop :=
  ∀ exit way, exit < f.blocks.length → f.succ exit = [] → Path f.succ b exit way → a ∈ way

theorem entry_inside (f : Func) (entry : BlockId) (starts : f.entry? = some entry) : entry < f.blocks.length := by
  obtain ⟨rfl, filled⟩ := (f.entry_eq_some entry).mp starts
  exact filled

theorem path_inside (f : Func) (linked : f.Linked) (a b : BlockId) (way : List BlockId)
    (inside : a < f.blocks.length) (path : Path f.succ a b way) : b < f.blocks.length := by
  induction path with
  | here a => exact inside
  | step a b c way edge _ ih => exact ih (f.succ_inside linked a b edge)

theorem path_against (f : Func) (linked : f.Linked) (a b : BlockId) (way : List BlockId)
    (path : Path f.succ a b way) : Path f.prev b a way.reverse :=
  path_reverse f.succ f.prev (fun c d edge => (f.prev_iff_succ linked c d).mpr edge) a b way path

theorem path_along (f : Func) (linked : f.Linked) (a b : BlockId) (way : List BlockId)
    (path : Path f.prev a b way) : Path f.succ b a way.reverse :=
  path_reverse f.prev f.succ (fun c d edge => (f.prev_iff_succ linked d c).mp edge) a b way path

theorem mem_reached (f : Func) (linked : f.Linked) (b : BlockId) : b ∈ reachableFromEntry f ↔ Reached f b := by
  have roots : ∀ root ∈ f.entry?.toList, root < f.blocks.length := by
    intro root member
    exact entry_inside f root (Option.mem_toList.mp member)
  rw [reachableFromEntry, mem_reachable f f.succ f.entry?.toList (f.succ_inside linked) roots]
  simp [Reached]

theorem reached_inside (f : Func) (linked : f.Linked) (b : BlockId) (reached : Reached f b) :
    b < f.blocks.length := by
  obtain ⟨entry, way, starts, path⟩ := reached
  exact path_inside f linked entry b way (entry_inside f entry starts) path

theorem reached_path (f : Func) (a b : BlockId) (way : List BlockId) (reached : Reached f a)
    (path : Path f.succ a b way) : Reached f b := by
  obtain ⟨entry, before, starts, first⟩ := reached
  obtain ⟨whole, path, _⟩ := path_trans f.succ entry a b before way first path
  exact ⟨entry, whole, starts, path⟩

theorem reached_along (f : Func) (a b : BlockId) (way : List BlockId) (reached : Reached f a)
    (path : Path f.succ a b way) (c : BlockId) (passed : c ∈ way) : Reached f c := by
  obtain ⟨before, first, _, _⟩ := path_until f.succ a b c way path passed
  exact reached_path f a c (before ++ [c]) reached first

theorem reached_step (f : Func) (a b : BlockId) (reached : Reached f a) (edge : b ∈ f.succ a) : Reached f b :=
  reached_path f a b [a, b] reached (.step a b b [b] edge (.here b))

theorem not_dominates (f : Func) (a b : BlockId) (missing : ¬Dominates f a b) :
    ∃ entry way, f.entry? = some entry ∧ Path f.succ entry b way ∧ a ∉ way := by
  simpa [Dominates] using missing

theorem dominates_antisymm (f : Func) (a b : BlockId) (reached : Reached f a) (first : Dominates f a b)
    (second : Dominates f b a) : a = b := by
  obtain ⟨entry, way, starts, path⟩ := reached
  obtain ⟨before, path, new, _⟩ := path_until f.succ entry a a way path (path_last f.succ entry a way path)
  rcases List.mem_append.mp (second entry (before ++ [a]) starts path) with early | last
  · -- A first visit of `a` before the first visit of `a`.
    obtain ⟨front, back, rfl⟩ := List.append_of_mem early
    rw [List.append_assoc, List.cons_append] at path
    have toB := (path_split f.succ entry a b front (back ++ [a]) path).1
    rcases List.mem_append.mp (first entry (front ++ [b]) starts toB) with earlier | same
    · exact absurd (List.mem_append_left (b :: back) earlier) new
    · exact List.mem_singleton.mp same
  · exact (List.mem_singleton.mp last).symm

-- Otherwise the way behind the last visit of one of the two could be entered without the other.
theorem dominators_chain (f : Func) (a b c : BlockId) (reached : Reached f c) (first : Dominates f a c)
    (second : Dominates f b c) : Dominates f a b ∨ Dominates f b a := by
  by_cases left : Dominates f a b
  · exact Or.inl left
  · by_cases right : Dominates f b a
    · exact Or.inr right
    · obtain ⟨entry, toB, starts, pathB, withoutA⟩ := not_dominates f a b left
      obtain ⟨_, toA, again, pathA, withoutB⟩ := not_dominates f b a right
      cases Option.some.inj (starts.symm.trans again)
      obtain ⟨_, way, again, path⟩ := reached
      cases Option.some.inj (starts.symm.trans again)
      obtain ⟨rest, path, new, _⟩ := path_after f.succ entry c a way path (first entry way starts path)
      obtain ⟨whole, joined, passed⟩ := path_trans f.succ entry a c toA (a :: rest) pathA path
      have behind : b ∈ a :: rest := ((passed b).mp (second entry whole starts joined)).resolve_left withoutB
      have other : b ≠ a := fun same => withoutB (same ▸ path_last f.succ entry a toA pathA)
      obtain ⟨front, back, rfl⟩ := List.append_of_mem (List.mem_of_ne_of_mem other behind)
      have fromB := (path_split f.succ a c b (a :: front) back path).2
      obtain ⟨whole, joined, passed⟩ := path_trans f.succ entry b c toB (b :: back) pathB fromB
      have met := ((passed a).mp (first entry whole starts joined)).resolve_left withoutA
      exact absurd (List.mem_append_right front met) new

theorem next_inside (f : Func) (linked : f.Linked) (direction : Direction) (a b : BlockId)
    (edge : b ∈ direction.next f a) : b < f.blocks.length := by
  cases direction with
  | forward => exact f.succ_inside linked a b edge
  | backward => exact f.prev_inside linked b a edge

theorem roots_inside (f : Func) (direction : Direction) (b : BlockId) (root : b ∈ direction.roots f) :
    b < f.blocks.length := by
  cases direction with
  | forward => exact entry_inside f b (Option.mem_toList.mp root)
  | backward => exact ((f.mem_exits b).mp root).1

theorem mem_reachable_without (f : Func) (linked : f.Linked) (direction : Direction) (removed b : BlockId) :
    b ∈ reachableWithout f direction removed ↔
      ∃ root ∈ direction.roots f, ∃ way, Path (direction.next f) root b way ∧ removed ∉ way := by
  have edges : ∀ a, ∀ c ∈ without removed (direction.next f a), c < f.blocks.length := by
    intro a c edge
    exact next_inside f linked direction a c (List.mem_filter.mp edge).1
  have roots : ∀ c ∈ without removed (direction.roots f), c < f.blocks.length := by
    intro c root
    exact roots_inside f direction c (List.mem_filter.mp root).1
  -- A way that keeps to the remaining blocks is a way that does not pass the removed one.
  have clear : ∀ root way, (root != removed) = true →
      (Path (fun c => without removed (direction.next f c)) root b way ↔
        Path (direction.next f) root b way ∧ removed ∉ way) := by
    intro root way kept
    have avoids : (∀ c ∈ way, (c != removed) = true) ↔ removed ∉ way := by
      simp only [bne_iff_ne, ne_eq, List.forall_mem_ne']
    rw [← avoids]
    exact path_filter (direction.next f) (fun c => c != removed) root b way kept
  rw [reachableWithout, mem_reachable f _ _ edges roots]
  constructor
  · rintro ⟨root, member, way, path⟩
    obtain ⟨member, kept⟩ := List.mem_filter.mp member
    exact ⟨root, member, way, (clear root way kept).mp path⟩
  · rintro ⟨root, member, way, path, new⟩
    have kept : (root != removed) = true :=
      bne_iff_ne.mpr fun same => new (same ▸ path_first _ root b way path)
    exact ⟨root, List.mem_filter.mpr ⟨member, kept⟩, way, (clear root way kept).mpr ⟨path, new⟩⟩

theorem dominates_iff (f : Func) (linked : f.Linked) (direction : Direction) (a b : BlockId)
    (first : a < f.blocks.length) (second : b < f.blocks.length) :
    (Dominance.ofFunc f direction).dominates a b = true ↔
      ∀ root ∈ direction.roots f, ∀ way, Path (direction.next f) root b way → a ∈ way := by
  have read : (Dominance.ofFunc f direction).set a =
      f.blockIds.filter fun c => !(reachableWithout f direction a).contains c := by
    simp [Dominance.set, Dominance.ofFunc, Func.blockIds, first]
  have cut : (Dominance.ofFunc f direction).dominates a b = true ↔
      a = b ∨ b ∉ reachableWithout f direction a := by
    simp [Dominance.dominates, read, Func.mem_block_ids, second]
  rw [cut, mem_reachable_without f linked]
  constructor
  · rintro (rfl | cutOff) root member way path
    · exact path_last _ root a way path
    · by_cases passed : a ∈ way
      · exact passed
      · exact absurd ⟨root, member, way, path, passed⟩ cutOff
  · intro always
    refine Or.inr ?_
    rintro ⟨root, member, way, path, new⟩
    exact new (always root member way path)

theorem dominance_iff (f : Func) (linked : f.Linked) (a b : BlockId) (first : a < f.blocks.length)
    (second : b < f.blocks.length) : (dominance f).dominates a b = true ↔ Dominates f a b := by
  rw [dominance, dominates_iff f linked .forward a b first second]
  constructor
  · intro always entry way starts path
    exact always entry (Option.mem_toList.mpr starts) way path
  · intro always root member way path
    exact always root way (Option.mem_toList.mp member) path

-- A way against the direction of control is a way to an exit, read backwards.
theorem post_dominance_iff (f : Func) (linked : f.Linked) (a b : BlockId) (first : a < f.blocks.length)
    (second : b < f.blocks.length) : (postDominance f).dominates a b = true ↔ PostDominates f a b := by
  rw [postDominance, dominates_iff f linked .backward a b first second]
  constructor
  · intro always exit way inside ends path
    have root := (f.mem_exits exit).mpr ⟨inside, ends⟩
    exact List.mem_reverse.mp (always exit root way.reverse (path_against f linked b exit way path))
  · intro always root member way path
    obtain ⟨inside, ends⟩ := (f.mem_exits root).mp member
    exact List.mem_reverse.mp (always root way.reverse inside ends (path_along f linked root b way path))

theorem dominance_by_ways (f : Func) (linked : f.Linked) (a b : BlockId) (first : a < f.blocks.length)
    (second : b < f.blocks.length) :
    ((dominance f).dominates a b = true ↔ Dominates f a b) ∧
      ((postDominance f).dominates a b = true ↔ PostDominates f a b) :=
  ⟨dominance_iff f linked a b first second, post_dominance_iff f linked a b first second⟩

theorem inner_header_dominates :
    Func.twoLoops.Linked ∧ 2 < Func.twoLoops.blocks.length ∧ 4 < Func.twoLoops.blocks.length ∧
      Dominates Func.twoLoops 2 4 ∧ ¬PostDominates Func.twoLoops 2 4 := by
  have here : 2 < Func.twoLoops.blocks.length := by decide
  have there : 4 < Func.twoLoops.blocks.length := by decide
  obtain ⟨before, after⟩ := dominance_by_ways Func.twoLoops Func.two_loops_linked 2 4 here there
  refine ⟨Func.two_loops_linked, here, there, before.mp (by decide), ?_⟩
  intro always
  exact absurd (after.mpr always) (by decide)

end LoopDeps.Flow
