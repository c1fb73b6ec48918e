import LoopDeps.Proofs.Flow.Forest
import LoopDeps.Proofs.Flow.NaturalLoops
set_option autoImplicit false

/- The loops found in a function. Each has one way in, its header, and is connected inside; and a cycle through a
   block that dominates it is never missed. -/
namespace LoopDeps.Flow

theorem forest_gathered (f : Func) (linked : f.Linked) (l : Loop) (member : l ∈ (LoopForest.ofFunc f).loops) :
    Gathered f l.header l.blocks := by
  apply natural_loop_gathered f linked ⟨l.header, l.blocks⟩
  rw [← forest_natural (naturalLoops f)]
  exact List.mem_map.mpr ⟨l, member, rfl⟩

theorem forest_loop_of_latch (f : Func) (linked : f.Linked) (header latch : BlockId)
    (latched : Latch f header latch) : ∃ l ∈ (LoopForest.ofFunc f).loops, l.header = header := by
  obtain ⟨natural, member, same⟩ := natural_loop_of_latch f linked header latch latched
  rw [← forest_natural (naturalLoops f)] at member
  obtain ⟨l, listed, rfl⟩ := List.mem_map.mp member
  exact ⟨l, listed, same⟩

theorem forest_headers_increasing (f : Func) :
    ((LoopForest.ofFunc f).loops.map Loop.header).Pairwise (· < ·) := by
  have headers := natural_headers_increasing f
  rw [← forest_natural (naturalLoops f), List.map_map] at headers
  exact headers

theorem loops_single_entry (f : Func) (linked : f.Linked) :
    ((LoopForest.ofFunc f).loops.map Loop.header).Nodup ∧
      ∀ l ∈ (LoopForest.ofFunc f).loops,
        l.blocks.Pairwise (· < ·) ∧ l.header ∈ l.blocks ∧
        (∀ b ∈ l.blocks, Reached f b ∧ Dominates f l.header b) ∧
        (∀ a b, Reached f a → a ∉ l.blocks → b ∈ f.succ a → b ∈ l.blocks → b = l.header) ∧
        (∀ a ∈ l.blocks, ∀ b ∈ l.blocks, ∃ way, Path f.succ a b way ∧ 2 ≤ way.length ∧ ∀ c ∈ way, c ∈ l.blocks) := by
  refine ⟨(forest_headers_increasing f).imp Nat.ne_of_lt, ?_⟩
  intro l member
  have gathered := forest_gathered f linked l member
  refine ⟨gathered.increasing, gathered_header f l.header l.blocks gathered, ?_,
    gathered_entered f l.header l.blocks gathered, ?_⟩
  · intro b inside
    exact ⟨gathered_reached f l.header l.blocks gathered b inside,
      gathered_dominated f l.header l.blocks gathered b inside⟩
  · intro a first b second
    exact gathered_connected f l.header l.blocks gathered a b first second

theorem outer_loop_single_entry :
    Func.twoLoops.Linked ∧ ∃ l ∈ (LoopForest.ofFunc Func.twoLoops).loops, l.blocks = [1, 2, 3, 4] ∧
      (∀ b ∈ l.blocks, Reached Func.twoLoops b ∧ Dominates Func.twoLoops l.header b) ∧
      ∃ way, Path Func.twoLoops.succ 3 2 way ∧ 2 ≤ way.length ∧ ∀ c ∈ way, c ∈ l.blocks := by
  obtain ⟨_, all⟩ := loops_single_entry Func.twoLoops Func.two_loops_linked
  have found : ∃ l ∈ (LoopForest.ofFunc Func.twoLoops).loops, l.blocks = [1, 2, 3, 4] := by decide
  obtain ⟨l, member, blocks⟩ := found
  obtain ⟨_, _, dominated, _, connected⟩ := all l member
  exact ⟨Func.two_loops_linked, l, member, blocks, dominated,
    connected 3 (by simp [blocks]) 2 (by simp [blocks])⟩

-- A way whose last block branches to its first one.
def Cycle (f : Func) (blocks : List BlockId) : Prop :=
  ∃ first last, Path f.succ first last blocks ∧ first ∈ f.succ last

structure DominatedCycle (f : Func) (header : BlockId) (blocks : List BlockId) : Prop where
  cycle : Cycle f blocks
  reached : ∀ b ∈ blocks, Reached f b
  passed : header ∈ blocks
  dominated : ∀ b ∈ blocks, Dominates f header b

-- Once around, from any block of a cycle to the next visit of another or of the same.
theorem cycle_around (f : Func) (cycle : List BlockId) (closed : Cycle f cycle) (a b : BlockId) (first : a ∈ cycle)
    (second : b ∈ cycle) : ∃ before, before ≠ [] ∧ Path f.succ a b (before ++ [b]) ∧ before ⊆ cycle := by
  obtain ⟨start, last, path, edge⟩ := closed
  obtain ⟨rest, on, within⟩ := path_from f.succ start last a cycle path first
  obtain ⟨front, up, _, inside⟩ := path_until f.succ start last b cycle path second
  have whole := path_join f.succ a last start b rest (front ++ [b]) on edge up
  rw [← List.append_assoc] at whole
  refine ⟨rest ++ front, ?_, whole, List.append_subset.mpr ⟨within, inside⟩⟩
  exact List.append_ne_nil_of_left_ne_nil (List.ne_nil_of_mem (path_first f.succ a last rest on)) front

theorem cycle_latch (f : Func) (header : BlockId) (cycle : List BlockId) (dominated : DominatedCycle f header cycle)
    (b : BlockId) (before : List BlockId) (filled : before ≠ []) (path : Path f.succ b header (before ++ [header]))
    (inside : before ⊆ cycle) : ∃ latch, Latch f header latch ∧ Path f.succ b latch before := by
  obtain ⟨latch, member, edge, path⟩ := path_last_step f.succ b header before filled path
  have on := inside member
  exact ⟨latch, ⟨dominated.reached latch on, edge, dominated.dominated latch on⟩, path⟩

theorem cycle_closes (f : Func) (header : BlockId) (cycle : List BlockId) (dominated : DominatedCycle f header cycle)
    (b : BlockId) (member : b ∈ cycle) (other : b ≠ header) : Closes f header b := by
  obtain ⟨around, _, path, inside⟩ := cycle_around f cycle dominated.cycle b header member dominated.passed
  obtain ⟨before, first, new, within⟩ :=
    path_until f.succ b header header (around ++ [header]) path (path_last f.succ b header _ path)
  have filled : before ≠ [] := by
    intro nothing
    rw [nothing] at first
    exact other (path_head f.succ b header header [] first).symm
  have on : before ⊆ cycle := by
    intro c passed
    rcases List.mem_append.mp (within passed) with early | last
    · exact inside early
    · exact List.mem_singleton.mp last ▸ dominated.passed
  obtain ⟨latch, latched, path⟩ := cycle_latch f header cycle dominated b before filled first on
  exact ⟨latch, before, latched, path, new⟩

theorem cycle_in_loop (f : Func) (linked : f.Linked) (header : BlockId) (cycle : List BlockId)
    (dominated : DominatedCycle f header cycle) :
    ∃ l ∈ (LoopForest.ofFunc f).loops, l.header = header ∧ ∀ b ∈ cycle, b ∈ l.blocks := by
  obtain ⟨around, filled, path, inside⟩ :=
    cycle_around f cycle dominated.cycle header header dominated.passed dominated.passed
  obtain ⟨latch, latched, _⟩ := cycle_latch f header cycle dominated header around filled path inside
  obtain ⟨l, listed, rfl⟩ := forest_loop_of_latch f linked header latch latched
  refine ⟨l, listed, rfl, ?_⟩
  intro b member
  apply ((forest_gathered f linked l listed).members b).mpr
  by_cases same : b = l.header
  · exact Or.inl same
  · exact Or.inr ⟨dominated.reached b member, cycle_closes f l.header cycle dominated b member same⟩

-- From the header to a latch and back.
theorem loop_has_cycle (f : Func) (linked : f.Linked) (l : Loop) (member : l ∈ (LoopForest.ofFunc f).loops) :
    ∃ cycle, DominatedCycle f l.header cycle := by
  have gathered := forest_gathered f linked l member
  obtain ⟨latch, latched⟩ := gathered.latched
  have closing := gathered_latch f l.header l.blocks gathered latch latched
  obtain ⟨way, path, inside⟩ := gathered_from_header f l.header l.blocks gathered latch closing
  refine ⟨way, ⟨l.header, latch, path, latched.edge⟩, ?_, path_first f.succ l.header latch way path, ?_⟩
  · exact fun b passed => gathered_reached f l.header l.blocks gathered b (inside passed)
  · exact fun b passed => gathered_dominated f l.header l.blocks gathered b (inside passed)

theorem dominated_cycles_found (f : Func) (linked : f.Linked) :
    (∀ header cycle, DominatedCycle f header cycle →
      ∃ l ∈ (LoopForest.ofFunc f).loops, l.header = header ∧ ∀ b ∈ cycle, b ∈ l.blocks) ∧
    ((LoopForest.ofFunc f).isEmpty = true ↔ ¬∃ header cycle, DominatedCycle f header cycle) := by
  have complete := cycle_in_loop f linked
  refine ⟨complete, ?_⟩
  rw [LoopForest.isEmpty, List.isEmpty_iff]
  constructor
  · rintro nothing ⟨header, cycle, dominated⟩
    obtain ⟨l, member, _⟩ := complete header cycle dominated
    simp [nothing] at member
  · intro acyclic
    apply List.eq_nil_iff_forall_not_mem.mpr
    intro l member
    obtain ⟨cycle, dominated⟩ := loop_has_cycle f linked l member
    exact acyclic ⟨l.header, cycle, dominated⟩

theorem two_loops_inner_cycle : DominatedCycle Func.twoLoops 2 [2, 3] := by
  have linked := Func.two_loops_linked
  have inside : ∀ b ∈ [2, 3], b < Func.twoLoops.blocks.length := by decide
  refine ⟨⟨2, 3, .step 2 3 3 [3] (by decide) (.here 3), by decide⟩, ?_, by decide, ?_⟩
  · intro b member
    have known : ∀ b ∈ [2, 3], b ∈ reachableFromEntry Func.twoLoops := by decide
    exact (mem_reached Func.twoLoops linked b).mp (known b member)
  · intro b member
    have known : ∀ b ∈ [2, 3], (dominance Func.twoLoops).dominates 2 b = true := by decide
    exact (dominance_iff Func.twoLoops linked 2 b (by decide) (inside b member)).mp (known b member)

theorem inner_cycle_found :
    Func.twoLoops.Linked ∧ DominatedCycle Func.twoLoops 2 [2, 3] ∧
      (∃ l ∈ (LoopForest.ofFunc Func.twoLoops).loops, l.header = 2 ∧ ∀ b ∈ [2, 3], b ∈ l.blocks) ∧
      (LoopForest.ofFunc Func.twoLoops).isEmpty ≠ true := by
  obtain ⟨complete, empty⟩ := dominated_cycles_found Func.twoLoops Func.two_loops_linked
  refine ⟨Func.two_loops_linked, two_loops_inner_cycle, complete 2 [2, 3] two_loops_inner_cycle, ?_⟩
  intro nothing
  exact empty.mp nothing ⟨2, [2, 3], two_loops_inner_cycle⟩

end LoopDeps.Flow
