import Mathlib.Data.List.Perm.Subperm
import LoopDeps.Flow.Loops
set_option autoImplicit false

/- What is recorded of the loops around a loop and inside it, for any list of loops, however they overlap. -/
namespace LoopDeps.Flow

-- All blocks, and not all of the others.
def Inside (inner outer : List BlockId) : Prop := inner ⊆ outer ∧ ¬outer ⊆ inner

theorem inside_trans (a b c : List BlockId) (first : Inside a b) (second : Inside b c) : Inside a c :=
  ⟨fun _ member => second.1 (first.1 member), fun back => second.2 fun _ member => first.1 (back member)⟩

theorem inside_irrefl (a : List BlockId) : ¬Inside a a := fun inside => inside.2 inside.1

theorem inside_shorter (inner outer : List BlockId) (once : inner.Nodup) (inside : Inside inner outer) :
    inner.length < outer.length := by
  have fits := once.subperm inside.1
  by_cases shorter : inner.length < outer.length
  · exact shorter
  · exact absurd (fits.perm_of_length_le (Nat.le_of_not_lt shorter)).symm.subset inside.2

theorem encloses_iff (outer inner : NaturalLoop) (first : outer.blocks.Nodup) (second : inner.blocks.Nodup) :
    encloses outer inner = true ↔ Inside inner.blocks outer.blocks := by
  have parts : encloses outer inner = true ↔
      inner.blocks.length < outer.blocks.length ∧ inner.blocks ⊆ outer.blocks := by
    simp [encloses, List.subset_def]
  rw [parts]
  constructor
  · rintro ⟨shorter, within⟩
    exact ⟨within, fun back => Nat.not_le_of_lt shorter (first.subperm back).length_le⟩
  · intro inside
    exact ⟨inside_shorter _ _ second inside, inside.1⟩

theorem smallest_none (size : LoopId → Nat) (ids : List LoopId) : smallest? size ids = none ↔ ids = [] := by
  cases ids with
  | nil => simp [smallest?]
  | cons id rest =>
      unfold smallest?
      split
      · simp
      · split <;> simp

theorem smallest_least (size : LoopId → Nat) (ids : List LoopId) (best : LoopId)
    (found : smallest? size ids = some best) : best ∈ ids ∧ ∀ id ∈ ids, size best ≤ size id := by
  induction ids generalizing best with
  | nil => simp [smallest?] at found
  | cons id rest ih =>
      unfold smallest? at found
      split at found
      · rename_i nothing
        cases found
        simp [(smallest_none size rest).mp nothing]
      · rename_i other least
        obtain ⟨member, least⟩ := ih other least
        split at found
        · rename_i less
          cases found
          refine ⟨List.mem_cons_of_mem id member, List.forall_mem_cons.mpr ⟨Nat.le_of_lt less, least⟩⟩
        · rename_i notLess
          cases found
          refine ⟨List.mem_cons_self, List.forall_mem_cons.mpr ⟨Nat.le_refl _, ?_⟩⟩
          exact fun id member => Nat.le_trans (Nat.le_of_not_lt notLess) (least id member)

-- The smallest loop around a loop.
def outerOf (loops : List NaturalLoop) (inner : NaturalLoop) : Option LoopId :=
  smallest? (fun id => (loops[id]?.elim 0 fun l => l.blocks.length)) <|
    (List.range loops.length).filter fun id => loops[id]?.any fun outer => encloses outer inner

def innersOf (loops : List NaturalLoop) (id : LoopId) : List LoopId :=
  (List.range loops.length).filter fun inner => loops[inner]?.map (outerOf loops) == some (some id)

theorem mem_around (loops : List NaturalLoop) (once : ∀ l ∈ loops, l.blocks.Nodup) (inner : NaturalLoop)
    (member : inner ∈ loops) (id : LoopId) :
    id ∈ ((List.range loops.length).filter fun id => loops[id]?.any fun outer => encloses outer inner) ↔
      ∃ outer, loops[id]? = some outer ∧ Inside inner.blocks outer.blocks := by
  rw [List.mem_filter, List.mem_range, Option.any_eq_true]
  constructor
  · rintro ⟨_, outer, found, encloses⟩
    have held := List.mem_of_getElem? found
    exact ⟨outer, found, (encloses_iff outer inner (once outer held) (once inner member)).mp encloses⟩
  · rintro ⟨outer, found, inside⟩
    have held := List.mem_of_getElem? found
    obtain ⟨bound, _⟩ := List.getElem?_eq_some_iff.mp found
    exact ⟨bound, outer, found, (encloses_iff outer inner (once outer held) (once inner member)).mpr inside⟩

theorem outer_of_none (loops : List NaturalLoop) (once : ∀ l ∈ loops, l.blocks.Nodup) (inner : NaturalLoop)
    (member : inner ∈ loops) :
    outerOf loops inner = none ↔ ∀ outer ∈ loops, ¬Inside inner.blocks outer.blocks := by
  rw [outerOf, smallest_none, List.eq_nil_iff_forall_not_mem]
  constructor
  · intro nothing outer held inside
    obtain ⟨id, found⟩ := List.mem_iff_getElem?.mp held
    exact nothing id ((mem_around loops once inner member id).mpr ⟨outer, found, inside⟩)
  · intro nothing id around
    obtain ⟨outer, found, inside⟩ := (mem_around loops once inner member id).mp around
    exact nothing outer (List.mem_of_getElem? found) inside

theorem outer_of_some (loops : List NaturalLoop) (once : ∀ l ∈ loops, l.blocks.Nodup) (inner : NaturalLoop)
    (member : inner ∈ loops) (id : LoopId) (found : outerOf loops inner = some id) :
    ∃ outer, loops[id]? = some outer ∧ Inside inner.blocks outer.blocks ∧
      ∀ other ∈ loops, Inside inner.blocks other.blocks → outer.blocks.length ≤ other.blocks.length := by
  obtain ⟨around, least⟩ := smallest_least _ _ id found
  obtain ⟨outer, here, inside⟩ := (mem_around loops once inner member id).mp around
  refine ⟨outer, here, inside, ?_⟩
  intro other held within
  obtain ⟨position, there⟩ := List.mem_iff_getElem?.mp held
  have bound := least position ((mem_around loops once inner member position).mpr ⟨other, there, within⟩)
  simpa [here, there] using bound

theorem forest_get (loops : List NaturalLoop) (id : LoopId) :
    (LoopForest.ofLoops loops).loops[id]? =
      loops[id]?.map fun l => ⟨outerOf loops l, l.header, innersOf loops id, l.blocks⟩ := by
  have outers : outers loops = loops.map (outerOf loops) := rfl
  have paired : (loops.map fun l => l).zip (loops.map (outerOf loops)) = loops.map fun l => (l, outerOf loops l) :=
    List.zip_map'
  rw [List.map_id'] at paired
  simp only [LoopForest.ofLoops, outers, paired, List.getElem?_mapIdx, List.getElem?_map, Option.map_map]
  rfl

theorem forest_natural (loops : List NaturalLoop) :
    (LoopForest.ofLoops loops).loops.map (fun l => ⟨l.header, l.blocks⟩) = loops := by
  apply List.ext_getElem?
  intro id
  rw [List.getElem?_map, forest_get]
  cases loops[id]? <;> rfl

theorem forest_entry (loops : List NaturalLoop) (id : LoopId) (l : Loop) :
    (LoopForest.ofLoops loops).loops[id]? = some l ↔
      ∃ natural, loops[id]? = some natural ∧
        ⟨outerOf loops natural, natural.header, innersOf loops id, natural.blocks⟩ = l := by
  rw [forest_get, Option.map_eq_some_iff]

theorem mem_inners (loops : List NaturalLoop) (inner outer : LoopId) :
    inner ∈ innersOf loops outer ↔
      ∃ natural, loops[inner]? = some natural ∧ outerOf loops natural = some outer := by
  rw [innersOf, List.mem_filter, List.mem_range, beq_iff_eq, Option.map_eq_some_iff]
  constructor
  · exact And.right
  · rintro ⟨natural, found, around⟩
    exact ⟨(List.getElem?_eq_some_iff.mp found).1, natural, found, around⟩

-- The second loop is recorded as the one around the first.
def Within (forest : LoopForest) (i o : LoopId) : Prop := ∃ l : Loop, forest.loops[i]? = some l ∧ l.outer = some o

-- What is recorded of the nesting of loops, however they overlap.
structure Recorded (forest : LoopForest) : Prop where
  outermost : ∀ l ∈ forest.loops, l.outer = none ↔ ∀ m ∈ forest.loops, ¬Inside l.blocks m.blocks
  outer : ∀ l ∈ forest.loops, ∀ o, l.outer = some o → ∃ m : Loop, forest.loops[o]? = some m ∧
    Inside l.blocks m.blocks ∧ ∀ k ∈ forest.loops, Inside l.blocks k.blocks → m.blocks.length ≤ k.blocks.length
  subloops : ∀ (o : LoopId) (m : Loop), forest.loops[o]? = some m → ∀ i, i ∈ m.subloops ↔ Within forest i o
  increasing : ∀ m ∈ forest.loops, m.subloops.Pairwise (· < ·)

theorem forest_source (loops : List NaturalLoop) (l : Loop) (member : l ∈ (LoopForest.ofLoops loops).loops) :
    ∃ natural ∈ loops, l.outer = outerOf loops natural ∧ l.blocks = natural.blocks := by
  obtain ⟨id, found⟩ := List.mem_iff_getElem?.mp member
  obtain ⟨natural, here, rfl⟩ := (forest_entry loops id l).mp found
  exact ⟨natural, List.mem_of_getElem? here, rfl, rfl⟩

theorem forest_target (loops : List NaturalLoop) (id : LoopId) (natural : NaturalLoop)
    (here : loops[id]? = some natural) :
    ∃ l : Loop, (LoopForest.ofLoops loops).loops[id]? = some l ∧ l.blocks = natural.blocks :=
  ⟨_, (forest_entry loops id _).mpr ⟨natural, here, rfl⟩, rfl⟩

theorem forest_outermost (loops : List NaturalLoop) (once : ∀ l ∈ loops, l.blocks.Nodup) (l : Loop)
    (member : l ∈ (LoopForest.ofLoops loops).loops) :
    l.outer = none ↔ ∀ m ∈ (LoopForest.ofLoops loops).loops, ¬Inside l.blocks m.blocks := by
  obtain ⟨natural, held, outer, blocks⟩ := forest_source loops l member
  rw [outer, blocks, outer_of_none loops once natural held]
  constructor
  · intro nothing m inForest
    obtain ⟨other, listed, _, same⟩ := forest_source loops m inForest
    rw [same]
    exact nothing other listed
  · intro nothing other listed
    obtain ⟨id, here⟩ := List.mem_iff_getElem?.mp listed
    obtain ⟨m, found, same⟩ := forest_target loops id other here
    rw [← same]
    exact nothing m (List.mem_of_getElem? found)

theorem forest_outer (loops : List NaturalLoop) (once : ∀ l ∈ loops, l.blocks.Nodup) (l : Loop)
    (member : l ∈ (LoopForest.ofLoops loops).loops) (o : LoopId) (around : l.outer = some o) :
    ∃ m : Loop, (LoopForest.ofLoops loops).loops[o]? = some m ∧ Inside l.blocks m.blocks ∧
      ∀ k ∈ (LoopForest.ofLoops loops).loops, Inside l.blocks k.blocks → m.blocks.length ≤ k.blocks.length := by
  obtain ⟨natural, held, outer, blocks⟩ := forest_source loops l member
  obtain ⟨other, here, inside, least⟩ := outer_of_some loops once natural held o (outer ▸ around)
  obtain ⟨m, found, same⟩ := forest_target loops o other here
  rw [blocks]
  refine ⟨m, found, same ▸ inside, ?_⟩
  intro k inForest within
  obtain ⟨third, listed, _, sameThird⟩ := forest_source loops k inForest
  rw [same, sameThird]
  exact least third listed (sameThird ▸ within)

theorem forest_subloops (loops : List NaturalLoop) (o : LoopId) (m : Loop)
    (found : (LoopForest.ofLoops loops).loops[o]? = some m) (i : LoopId) :
    i ∈ m.subloops ↔ Within (LoopForest.ofLoops loops) i o := by
  obtain ⟨_, _, rfl⟩ := (forest_entry loops o m).mp found
  rw [mem_inners]
  constructor
  · rintro ⟨natural, here, around⟩
    exact ⟨_, (forest_entry loops i _).mpr ⟨natural, here, rfl⟩, around⟩
  · rintro ⟨l, here, around⟩
    obtain ⟨natural, listed, rfl⟩ := (forest_entry loops i l).mp here
    exact ⟨natural, listed, around⟩

theorem forest_increasing (loops : List NaturalLoop) (m : Loop) (member : m ∈ (LoopForest.ofLoops loops).loops) :
    m.subloops.Pairwise (· < ·) := by
  obtain ⟨id, found⟩ := List.mem_iff_getElem?.mp member
  obtain ⟨_, _, rfl⟩ := (forest_entry loops id m).mp found
  exact List.pairwise_lt_range.filter _

theorem of_loops_recorded (loops : List NaturalLoop) (once : ∀ l ∈ loops, l.blocks.Nodup) :
    Recorded (LoopForest.ofLoops loops) :=
  { outermost := forest_outermost loops once
    outer := forest_outer loops once
    subloops := forest_subloops loops
    increasing := forest_increasing loops }

end LoopDeps.Flow
