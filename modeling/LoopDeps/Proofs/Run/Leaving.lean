import Mathlib.Data.Finset.Card
import Mathlib.Data.Finset.Range
import LoopDeps.Proofs.Flow.Nesting
import LoopDeps.Run.Nest
set_option autoImplicit false

/- The order in which loops are left. No bound on the depth of the nesting shows in it, and each loop comes once,
   behind all loops inside it. -/
namespace LoopDeps

open LoopDeps.Flow

namespace LoopNest

-- Loops left one after the other, each behind the loops inside it, however deep these are nested.
inductive Leaves (nest : LoopNest) : List LoopId → List LoopId → Prop where
  | nil : Leaves nest [] []
  | cons (id : LoopId) (rest inner later : List LoopId) (inside : Leaves nest (nest.subloopsOf id) inner)
      (after : Leaves nest rest later) : Leaves nest (id :: rest) (inner ++ id :: later)

theorem leaves_append (nest : LoopNest) (ids more order later : List LoopId) (first : Leaves nest ids order)
    (second : Leaves nest more later) : Leaves nest (ids ++ more) (order ++ later) := by
  induction first with
  | nil => exact second
  | cons id rest inner after inside _ _ ih =>
      rw [List.append_assoc]
      exact .cons id (rest ++ more) inner (after ++ later) inside ih

theorem leaves_each (nest : LoopNest) (ids : List LoopId) (order : LoopId → List LoopId)
    (each : ∀ id ∈ ids, Leaves nest [id] (order id)) : Leaves nest ids (ids.flatMap order) := by
  induction ids with
  | nil => exact .nil
  | cons id rest ih =>
      rw [List.flatMap_cons]
      exact leaves_append nest [id] rest (order id) (rest.flatMap order) (each id List.mem_cons_self)
        (ih fun other member => each other (List.mem_cons_of_mem id member))

-- Where a rank falls from each loop to those inside it, a depth above the rank cuts nothing off.
theorem leaving_leaves (nest : LoopNest) (rank : LoopId → Nat)
    (falls : ∀ id, ∀ sub ∈ nest.subloopsOf id, rank sub < rank id) (depth : Nat) (id : LoopId)
    (enough : rank id < depth) : Leaves nest [id] (nest.leaving depth id) := by
  induction depth generalizing id with
  | zero => exact absurd enough (Nat.not_lt_zero _)
  | succ depth ih =>
      refine .cons id [] _ [] (leaves_each nest _ (nest.leaving depth) fun sub inside => ih sub ?_) .nil
      exact Nat.lt_of_lt_of_le (falls id sub inside) (Nat.le_of_lt_succ enough)

theorem leaves_closed (nest : LoopNest) (ids order : List LoopId) (leaves : Leaves nest ids order) :
    ids ⊆ order ∧ ∀ id ∈ order, nest.subloopsOf id ⊆ order := by
  induction leaves with
  | nil => exact ⟨List.Subset.refl [], fun _ member => (List.not_mem_nil member).elim⟩
  | cons id rest inner later _ _ insideClosed afterClosed =>
      have left : inner ⊆ inner ++ id :: later := List.subset_append_left inner _
      have right : later ⊆ inner ++ id :: later := fun other member => by simp [member]
      refine ⟨List.cons_subset.mpr ⟨by simp, fun other member => right (afterClosed.1 member)⟩, ?_⟩
      intro other member
      rcases List.mem_append.mp member with early | late
      · exact fun sub inside => left (insideClosed.2 other early inside)
      · rcases List.mem_cons.mp late with rfl | after
        · exact fun sub inside => left (insideClosed.1 inside)
        · exact fun sub inside => right (afterClosed.2 other after inside)

end LoopNest

namespace Flow

theorem subloops_of_forest (forest : LoopForest) (id : LoopId) :
    (LoopNest.ofForest forest).subloopsOf id = forest.subloops id := by
  simp only [LoopNest.subloopsOf, LoopNest.ofForest, LoopForest.subloops, List.getElem?_map]
  cases forest.loops[id]? <;> rfl

theorem blocks_of_forest (forest : LoopForest) (id : LoopId) :
    (LoopNest.ofForest forest).blocksOf id = forest.blocks id := by
  simp only [LoopNest.blocksOf, LoopNest.ofForest, LoopForest.blocks, List.getElem?_map]
  cases forest.loops[id]? <;> rfl

theorem blocks_of_entry (forest : LoopForest) (id : LoopId) (l : Loop) (found : forest.loops[id]? = some l) :
    forest.blocks id = l.blocks := by
  rw [LoopForest.blocks, found, Option.elim_some]

theorem loop_bound (forest : LoopForest) (id : LoopId) (l : Loop) (found : forest.loops[id]? = some l) :
    id < forest.loops.length := (List.getElem?_eq_some_iff.mp found).1

theorem entry_of_bound (forest : LoopForest) (id : LoopId) (bound : id < forest.loops.length) :
    ∃ l, forest.loops[id]? = some l := ⟨_, List.getElem?_eq_getElem bound⟩

theorem mem_top_level (forest : LoopForest) (id : LoopId) :
    id ∈ forest.topLevel ↔ ∃ l, forest.loops[id]? = some l ∧ l.outer = none := by
  simp only [LoopForest.topLevel, List.mem_filter, List.mem_range, Option.any_eq_true, Option.isNone_iff_eq_none]
  constructor
  · exact And.right
  · rintro ⟨l, found, outermost⟩
    exact ⟨loop_bound forest id l found, l, found, outermost⟩

-- One loop of the forest is nested in another.
def NestedIn (forest : LoopForest) (inner outer : LoopId) : Prop :=
  Inside (forest.blocks inner) (forest.blocks outer)

theorem nested_iff (forest : LoopForest) (i j : LoopId) (l m : Loop) (here : forest.loops[i]? = some l)
    (there : forest.loops[j]? = some m) : NestedIn forest i j ↔ Inside l.blocks m.blocks := by
  rw [NestedIn, blocks_of_entry forest i l here, blocks_of_entry forest j m there]

instance (forest : LoopForest) (inner outer : LoopId) : Decidable (NestedIn forest inner outer) :=
  inferInstanceAs
    (Decidable (forest.blocks inner ⊆ forest.blocks outer ∧ ¬forest.blocks outer ⊆ forest.blocks inner))

def Innermost (forest : LoopForest) (id : LoopId) : Prop :=
  ∀ i < forest.loops.length, ¬NestedIn forest i id

instance (forest : LoopForest) (id : LoopId) : Decidable (Innermost forest id) :=
  inferInstanceAs (Decidable (∀ i < forest.loops.length, ¬NestedIn forest i id))

def innermostLoops (forest : LoopForest) : List LoopId :=
  (List.range forest.loops.length).filter fun id => Innermost forest id

-- Some loops of a forest, no two of which have a block in common.
structure Apart (forest : LoopForest) (ids : List LoopId) : Prop where
  inside : ∀ id ∈ ids, id < forest.loops.length
  disjoint : ids.Pairwise fun i j => List.Disjoint (forest.blocks i) (forest.blocks j)

-- How many loops are nested in a loop.
def nestedCount (forest : LoopForest) (id : LoopId) : Nat :=
  ((Finset.range forest.loops.length).filter fun i => NestedIn forest i id).card

theorem nested_count_bound (forest : LoopForest) (id : LoopId) (bound : id < forest.loops.length) :
    nestedCount forest id < forest.loops.length := by
  have fewer : ((Finset.range forest.loops.length).filter fun i => NestedIn forest i id).card <
      (Finset.range forest.loops.length).card := by
    refine Finset.card_lt_card (Finset.filter_ssubset.mpr ⟨id, Finset.mem_range.mpr bound, ?_⟩)
    exact inside_irrefl (forest.blocks id)
  rwa [Finset.card_range] at fewer

theorem nested_count_falls (forest : LoopForest) (inner outer : LoopId) (bound : inner < forest.loops.length)
    (nested : NestedIn forest inner outer) : nestedCount forest inner < nestedCount forest outer := by
  refine Finset.card_lt_card ((Finset.ssubset_iff_of_subset ?_).mpr ⟨inner, ?_, ?_⟩)
  · intro i member
    obtain ⟨inRange, further⟩ := Finset.mem_filter.mp member
    exact Finset.mem_filter.mpr ⟨inRange, inside_trans _ _ _ further nested⟩
  · exact Finset.mem_filter.mpr ⟨Finset.mem_range.mpr bound, nested⟩
  · exact fun member => inside_irrefl (forest.blocks inner) (Finset.mem_filter.mp member).2

section

variable (forest : LoopForest) (recorded : Recorded forest)

include recorded

theorem mem_subloops (id sub : LoopId) (member : sub ∈ forest.subloops id) :
    ∃ l m : Loop, forest.loops[sub]? = some l ∧ l.outer = some id ∧ forest.loops[id]? = some m ∧
      Inside l.blocks m.blocks := by
  cases found : forest.loops[id]? with
  | none => simp [LoopForest.subloops, found] at member
  | some m =>
      rw [LoopForest.subloops, found, Option.elim_some, recorded.subloops id m found] at member
      obtain ⟨l, here, around⟩ := member
      obtain ⟨m', again, inside, _⟩ := recorded.outer l (List.mem_of_getElem? here) id around
      cases Option.some.inj (found.symm.trans again)
      exact ⟨l, m, here, around, rfl, inside⟩

theorem subloop_nested (id sub : LoopId) (member : sub ∈ forest.subloops id) :
    sub < forest.loops.length ∧ NestedIn forest sub id := by
  obtain ⟨l, m, here, _, there, inside⟩ := mem_subloops forest recorded id sub member
  rw [nested_iff forest sub id l m here there]
  exact ⟨loop_bound forest sub l here, inside⟩

-- The bound on the depth that the order is made with is never short.
theorem order_leaves :
    (LoopNest.ofForest forest).Leaves forest.topLevel (LoopNest.ofForest forest).order := by
  refine LoopNest.leaves_each _ forest.topLevel _ fun id member => ?_
  refine LoopNest.leaving_leaves _ (nestedCount forest) ?_ _ id ?_
  · intro outer sub inside
    rw [subloops_of_forest] at inside
    obtain ⟨bound, nested⟩ := subloop_nested forest recorded outer sub inside
    exact nested_count_falls forest sub outer bound nested
  · obtain ⟨l, found, _⟩ := (mem_top_level forest id).mp member
    have size : (LoopNest.ofForest forest).subloops.length = forest.loops.length := List.length_map _
    rw [size]
    exact nested_count_bound forest id (loop_bound forest id l found)

theorem outermost_outside (i j : LoopId) (first : i ∈ forest.topLevel) (second : j ∈ forest.topLevel) :
    ¬NestedIn forest i j := by
  obtain ⟨l, here, outermost⟩ := (mem_top_level forest i).mp first
  obtain ⟨k, there, _⟩ := (mem_top_level forest j).mp second
  rw [nested_iff forest i j l k here there]
  exact (recorded.outermost l (List.mem_of_getElem? here)).mp outermost k (List.mem_of_getElem? there)

-- Whatever is left lies in one of the loops that the traversal was sent to.
theorem leaves_within (ids order : List LoopId) (inForest : ∀ id ∈ ids, id < forest.loops.length)
    (leaves : (LoopNest.ofForest forest).Leaves ids order) :
    ∀ j ∈ order, j < forest.loops.length ∧ ∃ id ∈ ids, forest.blocks j ⊆ forest.blocks id := by
  induction leaves with
  | nil => exact fun _ member => (List.not_mem_nil member).elim
  | cons id rest inner later _ _ insideWithin afterWithin =>
      rw [subloops_of_forest] at insideWithin
      intro j member
      rcases List.mem_append.mp member with early | late
      · obtain ⟨bound, sub, inSubloops, covered⟩ :=
          insideWithin (fun sub inside => (subloop_nested forest recorded id sub inside).1) j early
        have nested := (subloop_nested forest recorded id sub inSubloops).2
        exact ⟨bound, id, List.mem_cons_self, List.Subset.trans covered nested.1⟩
      · rcases List.mem_cons.mp late with rfl | after
        · exact ⟨inForest j List.mem_cons_self, j, List.mem_cons_self, List.Subset.refl _⟩
        · obtain ⟨bound, other, inRest, covered⟩ :=
            afterWithin (fun other inRest => inForest other (List.mem_cons_of_mem id inRest)) j after
          exact ⟨bound, other, List.mem_cons_of_mem id inRest, covered⟩

variable (laminar : Laminar forest)

include laminar

-- A loop inside a sibling would have the sibling around it, and not the loop around both.
theorem sibling_outside (o i j : LoopId) (first : i ∈ forest.subloops o) (second : j ∈ forest.subloops o) :
    ¬NestedIn forest i j := by
  obtain ⟨l, m, here, around, there, _⟩ := mem_subloops forest recorded o i first
  obtain ⟨k, m', sibling, _, again, inside⟩ := mem_subloops forest recorded o j second
  cases Option.some.inj (there.symm.trans again)
  rw [nested_iff forest i j l k here sibling]
  intro within
  obtain ⟨m', again, _, innermost⟩ :=
    outer_innermost forest recorded laminar l (List.mem_of_getElem? here) o around
  cases Option.some.inj (there.symm.trans again)
  rcases innermost j k sibling within with rfl | larger
  · cases Option.some.inj (there.symm.trans sibling)
    exact inside_irrefl m.blocks inside
  · exact inside_irrefl m.blocks (inside_trans _ _ _ larger inside)

omit recorded in
theorem apart_of_outside (ids : List LoopId) (inside : ∀ id ∈ ids, id < forest.loops.length)
    (once : ids.Pairwise (· < ·)) (outside : ∀ i ∈ ids, ∀ j ∈ ids, ¬NestedIn forest i j) : Apart forest ids := by
  refine ⟨inside, once.imp_of_mem fun {i j} first second less => ?_⟩
  obtain ⟨l, here⟩ := entry_of_bound forest i (inside i first)
  obtain ⟨k, there⟩ := entry_of_bound forest j (inside j second)
  have notLeft := outside i first j second
  have notRight := outside j second i first
  rw [nested_iff forest i j l k here there] at notLeft
  rw [nested_iff forest j i k l there here] at notRight
  rw [blocks_of_entry forest i l here, blocks_of_entry forest j k there]
  exact (laminar.apart i j l k here there (Nat.ne_of_lt less)).resolve_right
    fun either => either.elim notLeft notRight

theorem subloops_apart (id : LoopId) : Apart forest (forest.subloops id) := by
  refine apart_of_outside forest laminar _ (fun sub member => (subloop_nested forest recorded id sub member).1) ?_
    fun i first j second => sibling_outside forest recorded laminar id i j first second
  cases found : forest.loops[id]? with
  | none => simp [LoopForest.subloops, found]
  | some m =>
      rw [LoopForest.subloops, found, Option.elim_some]
      exact recorded.increasing m (List.mem_of_getElem? found)

theorem top_level_apart : Apart forest forest.topLevel := by
  refine apart_of_outside forest laminar _ ?_ (List.pairwise_lt_range.filter _)
    fun i first j second => outermost_outside forest recorded i j first second
  intro id member
  obtain ⟨l, found, _⟩ := (mem_top_level forest id).mp member
  exact loop_bound forest id l found

omit recorded in
theorem unrelated_of_disjoint (i j : LoopId) (first : i < forest.loops.length)
    (disjoint : List.Disjoint (forest.blocks i) (forest.blocks j)) : i ≠ j ∧ ¬NestedIn forest i j := by
  obtain ⟨l, here⟩ := entry_of_bound forest i first
  have filled := laminar.filled l (List.mem_of_getElem? here)
  rw [← blocks_of_entry forest i l here] at filled
  obtain ⟨b, member⟩ := List.exists_mem_of_ne_nil _ filled
  constructor
  · rintro rfl
    exact disjoint member member
  · exact fun nested => disjoint member (nested.1 member)

-- What is left before a loop is no loop around it: it is inside a loop apart from it, or inside the loop itself.
theorem leaves_in_order (ids order : List LoopId) (apart : Apart forest ids)
    (leaves : (LoopNest.ofForest forest).Leaves ids order) :
    order.Pairwise fun i j => j ≠ i ∧ ¬NestedIn forest j i := by
  induction leaves with
  | nil => exact .nil
  | cons id rest inner later inside after insideSorted afterSorted =>
      rw [subloops_of_forest] at inside insideSorted
      obtain ⟨disjoint, restDisjoint⟩ := List.pairwise_cons.mp apart.disjoint
      have restInside : ∀ other ∈ rest, other < forest.loops.length := fun other member =>
        apart.inside other (List.mem_cons_of_mem id member)
      have nested : ∀ j ∈ inner, NestedIn forest j id := by
        intro j member
        obtain ⟨_, sub, inSubloops, covered⟩ := leaves_within forest recorded _ inner
          (subloops_apart forest recorded laminar id).inside inside j member
        have around := (subloop_nested forest recorded id sub inSubloops).2
        exact ⟨List.Subset.trans covered around.1, fun back => around.2 (List.Subset.trans back covered)⟩
      have unrelated : ∀ i, forest.blocks i ⊆ forest.blocks id →
          ∀ j ∈ later, j ≠ i ∧ ¬NestedIn forest j i := by
        intro i covered j member
        obtain ⟨inForest, other, inRest, coveredThere⟩ :=
          leaves_within forest recorded rest later restInside after j member
        refine unrelated_of_disjoint forest laminar j i inForest fun b there here => ?_
        exact disjoint other inRest (covered here) (coveredThere there)
      refine List.pairwise_append.mpr ⟨insideSorted (subloops_apart forest recorded laminar id),
        List.pairwise_cons.mpr ⟨unrelated id (List.Subset.refl _), afterSorted ⟨restInside, restDisjoint⟩⟩, ?_⟩
      intro i early j late
      rcases List.mem_cons.mp late with rfl | after
      · refine ⟨?_, fun around => inside_irrefl _ (inside_trans _ _ _ around (nested i early))⟩
        rintro rfl
        exact inside_irrefl _ (nested j early)
      · exact unrelated i (nested i early).1 j after

-- Going out from a loop, one loop at a time, ends at an outermost one.
theorem order_complete (id : LoopId) :
    id ∈ (LoopNest.ofForest forest).order ↔ id < forest.loops.length := by
  have leaves := order_leaves forest recorded
  obtain ⟨outermost, closed⟩ := LoopNest.leaves_closed _ _ _ leaves
  constructor
  · intro member
    have apart := top_level_apart forest recorded laminar
    exact (leaves_within forest recorded _ _ apart.inside leaves id member).1
  · intro bound
    induction gap : forest.loops.length - nestedCount forest id using Nat.strongRecOn generalizing id with
    | ind gap ih =>
        obtain ⟨l, found⟩ := entry_of_bound forest id bound
        cases around : l.outer with
        | none => exact outermost ((mem_top_level forest id).mpr ⟨l, found, around⟩)
        | some o =>
            obtain ⟨m, there, _⟩ := recorded.outer l (List.mem_of_getElem? found) o around
            have inside : id ∈ forest.subloops o := by
              rw [LoopForest.subloops, there, Option.elim_some, recorded.subloops o m there]
              exact ⟨l, found, around⟩
            have outerBound := loop_bound forest o m there
            have falls := nested_count_falls forest id o bound (subloop_nested forest recorded o id inside).2
            have rises := nested_count_bound forest id bound
            have before := ih (forest.loops.length - nestedCount forest o) (by omega) o outerBound rfl
            rw [← subloops_of_forest] at inside
            exact closed o before inside

theorem order_sorted :
    (LoopNest.ofForest forest).order.Pairwise fun i j => j ≠ i ∧ ¬NestedIn forest j i :=
  leaves_in_order forest recorded laminar _ _ (top_level_apart forest recorded laminar)
    (order_leaves forest recorded)

theorem is_innermost_iff (id : LoopId) (bound : id < forest.loops.length) :
    (LoopNest.ofForest forest).isInnermost id = true ↔ Innermost forest id := by
  obtain ⟨m, found⟩ := entry_of_bound forest id bound
  rw [LoopNest.isInnermost, subloops_of_forest, LoopForest.subloops, found, Option.elim_some, List.isEmpty_iff,
    innermost_iff forest recorded laminar m (List.mem_of_getElem? found)]
  constructor
  · intro alone i inForest
    obtain ⟨l, here⟩ := entry_of_bound forest i inForest
    rw [nested_iff forest i id l m here found]
    exact alone l (List.mem_of_getElem? here)
  · intro alone l member
    obtain ⟨i, here⟩ := List.mem_iff_getElem?.mp member
    have outside := alone i (loop_bound forest i l here)
    rwa [nested_iff forest i id l m here found] at outside

theorem order_innermost :
    (LoopNest.ofForest forest).order.countP (LoopNest.ofForest forest).isInnermost =
      (innermostLoops forest).length := by
  have once : (LoopNest.ofForest forest).order.Nodup :=
    (order_sorted forest recorded laminar).imp fun both => both.1.symm
  have same : (LoopNest.ofForest forest).order.Perm (List.range forest.loops.length) := by
    refine (List.perm_ext_iff_of_nodup once List.nodup_range).mpr fun id => ?_
    rw [order_complete forest recorded laminar, List.mem_range]
  rw [same.countP_eq, innermostLoops, ← List.countP_eq_length_filter]
  refine List.countP_congr fun id member => ?_
  rw [is_innermost_iff forest recorded laminar id (List.mem_range.mp member), decide_eq_true_eq]

end

end Flow

end LoopDeps
