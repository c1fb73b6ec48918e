import Mathlib.Logic.Relation
import LoopDeps.Proofs.Flow.Discovery
set_option autoImplicit false

/- Two loops share no block unless the header of one dominates the other one's, and then that other loop is
   inside. So the loops around a loop lie in a row, and the smallest by size is the innermost of them. -/
namespace LoopDeps.Flow

-- Loops that are nested wherever they overlap.
structure Laminar (forest : LoopForest) : Prop where
  once : ∀ l ∈ forest.loops, l.blocks.Nodup
  filled : ∀ l ∈ forest.loops, l.blocks ≠ []
  apart : ∀ (i j : LoopId) (l m : Loop), forest.loops[i]? = some l → forest.loops[j]? = some m → i ≠ j →
    List.Disjoint l.blocks m.blocks ∨ Inside l.blocks m.blocks ∨ Inside m.blocks l.blocks

-- A loop around `l` that every other loop around `l` is strictly around as well.
def Smallest (forest : LoopForest) (l : Loop) (o : LoopId) : Prop :=
  ∃ m : Loop, forest.loops[o]? = some m ∧ Inside l.blocks m.blocks ∧
    ∀ (p : LoopId) (k : Loop), forest.loops[p]? = some k → Inside l.blocks k.blocks →
      p = o ∨ Inside m.blocks k.blocks

section

variable (f : Func) (header other : BlockId) (blocks more : List BlockId) (first : Gathered f header blocks)
  (second : Gathered f other more)

include first second

-- A block of both leads to the inner header without passing the outer one, and so does all of the inner loop.
theorem dominated_loop_inside (different : header ≠ other) (dominated : Dominates f header other) (b : BlockId)
    (here : b ∈ blocks) (there : b ∈ more) : Inside more blocks := by
  have innerHeader := gathered_header f other more second
  have outside : header ∉ more := by
    intro member
    have back := gathered_dominated f other more second header member
    have reached := gathered_reached f other more second header member
    exact different (dominates_antisymm f header other reached dominated back)
  have toShared : other ∈ blocks := by
    obtain ⟨way, path, within⟩ := gathered_from_header f other more second b there
    have reached := gathered_reached f other more second other innerHeader
    exact gathered_along f header blocks first other b way reached path here (fun passed => outside (within passed))
      (path_first f.succ other b way path)
  refine ⟨?_, fun back => outside (back (gathered_header f header blocks first))⟩
  intro c member
  obtain ⟨way, path, _, within⟩ := gathered_connected f other more second c other member innerHeader
  have reached := gathered_reached f other more second c member
  exact gathered_along f header blocks first c other way reached path toShared
    (fun passed => outside (within header passed)) (path_first f.succ c other way path)

theorem loops_apart (different : header ≠ other) :
    List.Disjoint blocks more ∨ Inside blocks more ∨ Inside more blocks := by
  by_cases shared : ∃ b ∈ blocks, b ∈ more
  · obtain ⟨b, here, there⟩ := shared
    have reached := gathered_reached f header blocks first b here
    rcases dominators_chain f header other b reached (gathered_dominated f header blocks first b here)
      (gathered_dominated f other more second b there) with outer | inner
    · exact Or.inr (Or.inr (dominated_loop_inside f header other blocks more first second different outer b here there))
    · exact Or.inr (Or.inl
        (dominated_loop_inside f other header more blocks second first (Ne.symm different) inner b there here))
  · exact Or.inl fun b here there => shared ⟨b, here, there⟩

end

theorem forest_laminar (f : Func) (linked : f.Linked) : Laminar (LoopForest.ofFunc f) := by
  refine ⟨?_, ?_, ?_⟩
  · intro l member
    exact (forest_gathered f linked l member).increasing.imp Nat.ne_of_lt
  · intro l member
    exact List.ne_nil_of_mem (gathered_header f l.header l.blocks (forest_gathered f linked l member))
  · intro i j l m here there different
    have first := forest_gathered f linked l (List.mem_of_getElem? here)
    have second := forest_gathered f linked m (List.mem_of_getElem? there)
    apply loops_apart f l.header m.header l.blocks m.blocks first second
    intro same
    have once : ((LoopForest.ofFunc f).loops.map Loop.header).Nodup :=
      (forest_headers_increasing f).imp Nat.ne_of_lt
    have bound : i < ((LoopForest.ofFunc f).loops.map Loop.header).length := by
      rw [List.length_map]
      exact (List.getElem?_eq_some_iff.mp here).1
    apply different
    apply (List.getElem?_inj bound once).mp
    rw [List.getElem?_map, List.getElem?_map, here, there, Option.map_some, Option.map_some, same]

theorem forest_recorded (f : Func) (linked : f.Linked) : Recorded (LoopForest.ofFunc f) := by
  apply of_loops_recorded
  intro l member
  exact (natural_loop_gathered f linked l member).increasing.imp Nat.ne_of_lt

section

variable (forest : LoopForest) (recorded : Recorded forest)

include recorded

theorem within_inside (i o : LoopId) (steps : Relation.TransGen (Within forest) i o) :
    ∃ l m : Loop, forest.loops[i]? = some l ∧ forest.loops[o]? = some m ∧ Inside l.blocks m.blocks := by
  induction steps with
  | single step =>
      obtain ⟨l, here, around⟩ := step
      obtain ⟨m, there, inside, _⟩ := recorded.outer l (List.mem_of_getElem? here) _ around
      exact ⟨l, m, here, there, inside⟩
  | tail _ step ih =>
      obtain ⟨l, m, here, middle, inside⟩ := ih
      obtain ⟨k, again, around⟩ := step
      cases Option.some.inj (middle.symm.trans again)
      obtain ⟨n, there, further, _⟩ := recorded.outer m (List.mem_of_getElem? middle) _ around
      exact ⟨l, n, here, there, inside_trans _ _ _ inside further⟩

theorem within_acyclic (i : LoopId) : ¬Relation.TransGen (Within forest) i i := by
  intro cycle
  obtain ⟨l, m, here, there, inside⟩ := within_inside forest recorded i i cycle
  cases Option.some.inj (here.symm.trans there)
  exact inside_irrefl l.blocks inside

variable (laminar : Laminar forest)

include laminar

-- The smallest loop around a loop lies inside all others around it.
theorem outer_innermost (l : Loop) (member : l ∈ forest.loops) (o : LoopId) (around : l.outer = some o) :
    Smallest forest l o := by
  obtain ⟨m, found, inside, least⟩ := recorded.outer l member o around
  refine ⟨m, found, inside, ?_⟩
  intro p k listed within
  by_cases same : p = o
  · exact Or.inl same
  · rcases laminar.apart p o k m listed found same with disjoint | smaller | larger
    · obtain ⟨b, shared⟩ := List.exists_mem_of_ne_nil _ (laminar.filled l member)
      exact absurd (inside.1 shared) (disjoint (within.1 shared))
    · have once := laminar.once k (List.mem_of_getElem? listed)
      have shorter := inside_shorter k.blocks m.blocks once smaller
      exact absurd (least k (List.mem_of_getElem? listed) within) (Nat.not_le_of_lt shorter)
    · exact Or.inr larger

theorem outer_iff (l : Loop) (member : l ∈ forest.loops) (o : LoopId) :
    l.outer = some o ↔ Smallest forest l o := by
  constructor
  · exact outer_innermost forest recorded laminar l member o
  · rintro ⟨m, found, inside, innermost⟩
    cases around : l.outer with
    | none => exact absurd inside ((recorded.outermost l member).mp around m (List.mem_of_getElem? found))
    | some p =>
        obtain ⟨k, listed, within, least⟩ := outer_innermost forest recorded laminar l member p around
        by_cases same : p = o
        · rw [same]
        · have larger := (innermost p k listed within).resolve_left same
          have smaller := (least o m found inside).resolve_left (Ne.symm same)
          exact absurd (inside_trans _ _ _ larger smaller) (inside_irrefl m.blocks)

-- Going out from a loop inside, one loop at a time.
theorem subloop_of_inside (o : LoopId) (m : Loop) (found : forest.loops[o]? = some m) (l : Loop)
    (member : l ∈ forest.loops) (inside : Inside l.blocks m.blocks) : m.subloops ≠ [] := by
  have once := laminar.once l member
  have shorter := inside_shorter l.blocks m.blocks once inside
  induction gap : m.blocks.length - l.blocks.length using Nat.strongRecOn generalizing l with
  | ind gap ih =>
      cases around : l.outer with
      | none => exact absurd inside ((recorded.outermost l member).mp around m (List.mem_of_getElem? found))
      | some p =>
          obtain ⟨k, listed, within, innermost⟩ := outer_innermost forest recorded laminar l member p around
          have held := List.mem_of_getElem? listed
          cases innermost o m found inside with
          | inl same =>
              obtain ⟨i, here⟩ := List.mem_iff_getElem?.mp member
              exact List.ne_nil_of_mem ((recorded.subloops o m found i).mpr ⟨l, here, same ▸ around⟩)
          | inr larger =>
              have onceHere := laminar.once k held
              have grown := inside_shorter l.blocks k.blocks once within
              have below := inside_shorter k.blocks m.blocks onceHere larger
              exact ih (m.blocks.length - k.blocks.length) (by omega) k held larger onceHere below rfl

theorem innermost_iff (m : Loop) (listed : m ∈ forest.loops) :
    m.subloops = [] ↔ ∀ l ∈ forest.loops, ¬Inside l.blocks m.blocks := by
  obtain ⟨o, found⟩ := List.mem_iff_getElem?.mp listed
  constructor
  · intro nothing l member inside
    exact subloop_of_inside forest recorded laminar o m found l member inside nothing
  · intro nothing
    apply List.eq_nil_iff_forall_not_mem.mpr
    intro i inner
    obtain ⟨l, here, around⟩ := (recorded.subloops o m found i).mp inner
    have member := List.mem_of_getElem? here
    obtain ⟨k, again, inside, _⟩ := recorded.outer l member o around
    cases Option.some.inj (found.symm.trans again)
    exact nothing l member inside

theorem innermost_disjoint (i j : LoopId) (l m : Loop) (here : forest.loops[i]? = some l)
    (there : forest.loops[j]? = some m) (different : i ≠ j) (first : l.subloops = []) (second : m.subloops = []) :
    List.Disjoint l.blocks m.blocks := by
  rcases laminar.apart i j l m here there different with disjoint | inside | inside
  · exact disjoint
  · have alone := (innermost_iff forest recorded laminar m (List.mem_of_getElem? there)).mp second
    exact absurd inside (alone l (List.mem_of_getElem? here))
  · have alone := (innermost_iff forest recorded laminar l (List.mem_of_getElem? here)).mp first
    exact absurd inside (alone m (List.mem_of_getElem? there))

end

-- How the loops of a function lie to one another, and that all of it is recorded.
structure Nested (forest : LoopForest) : Prop where
  apart : ∀ (i j : LoopId) (l m : Loop), forest.loops[i]? = some l → forest.loops[j]? = some m → i ≠ j →
    List.Disjoint l.blocks m.blocks ∨ Inside l.blocks m.blocks ∨ Inside m.blocks l.blocks
  outer : ∀ l ∈ forest.loops, ∀ o, l.outer = some o ↔ Smallest forest l o
  outermost : ∀ l ∈ forest.loops, l.outer = none ↔ ∀ m ∈ forest.loops, ¬Inside l.blocks m.blocks
  subloops : ∀ (o : LoopId) (m : Loop), forest.loops[o]? = some m → ∀ i, i ∈ m.subloops ↔ Within forest i o
  increasing : ∀ m ∈ forest.loops, m.subloops.Pairwise (· < ·)
  acyclic : ∀ i, ¬Relation.TransGen (Within forest) i i
  innermost : ∀ m ∈ forest.loops, m.subloops = [] ↔ ∀ l ∈ forest.loops, ¬Inside l.blocks m.blocks
  innermostApart : ∀ (i j : LoopId) (l m : Loop), forest.loops[i]? = some l → forest.loops[j]? = some m → i ≠ j →
    l.subloops = [] → m.subloops = [] → List.Disjoint l.blocks m.blocks

theorem loops_nested (f : Func) (linked : f.Linked) : Nested (LoopForest.ofFunc f) := by
  have recorded := forest_recorded f linked
  have laminar := forest_laminar f linked
  exact
    { apart := laminar.apart
      outer := outer_iff (LoopForest.ofFunc f) recorded laminar
      outermost := recorded.outermost
      subloops := recorded.subloops
      increasing := recorded.increasing
      acyclic := within_acyclic (LoopForest.ofFunc f) recorded
      innermost := innermost_iff (LoopForest.ofFunc f) recorded laminar
      innermostApart := innermost_disjoint (LoopForest.ofFunc f) recorded laminar }

theorem inner_loop_nested :
    Func.twoLoops.Linked ∧ Nested (LoopForest.ofFunc Func.twoLoops) ∧
      (LoopForest.ofFunc Func.twoLoops).loops.map Loop.outer = [none, some 0] :=
  ⟨Func.two_loops_linked, loops_nested Func.twoLoops Func.two_loops_linked, by decide⟩

end LoopDeps.Flow
