import Mathlib.Data.List.Forall2
import LoopDeps.Proofs.Run.Leaving
import LoopDeps.Run.Process
set_option autoImplicit false

/- The numbers of the loops of a run. A run leaves the loops of its functions one after the other, the number of a
   loop is its place in that row, and the innermost loops are reported under theirs. -/
namespace LoopDeps

open LoopDeps.Flow

namespace LoopNest

def ofFunc (f : Func) : LoopNest := ofForest (LoopForest.ofFunc f)

end LoopNest

-- One loop of one of the functions of a run.
structure Stop where
  -- The position of the function among those of the run.
  place : Nat
  func : Func
  loop : LoopId

namespace Stop

def Listed (fs : List Func) (stop : Stop) : Prop :=
  fs[stop.place]? = some stop.func ∧ stop.loop < (LoopForest.ofFunc stop.func).loops.length

def Nested (inner outer : Stop) : Prop :=
  inner.place = outer.place ∧ NestedIn (LoopForest.ofFunc outer.func) inner.loop outer.loop

-- What the rows of two stops of a run tell of them.
def Before (first second : Stop) : Prop :=
  first.place < second.place ∨
    first.place = second.place ∧ second.loop ≠ first.loop ∧ ¬second.Nested first

def isInnermost (stop : Stop) : Bool := (LoopNest.ofFunc stop.func).isInnermost stop.loop

def body (stop : Stop) (number : Nat) : Body :=
  ⟨number, stop.func, (LoopForest.ofFunc stop.func).blocks stop.loop⟩

end Stop

def stopsOf (place : Nat) (f : Func) : List Stop := (LoopNest.ofFunc f).order.map (Stop.mk place f)

def stops (fs : List Func) : List Stop := fs.zipIdx.flatMap fun entry => stopsOf entry.2 entry.1

theorem numbers_increasing {α : Type} (items : List α) : items.zipIdx.Pairwise fun a b => a.2 < b.2 := by
  have places : (items.zipIdx.map Prod.snd).Pairwise (· < ·) := by
    rw [List.zipIdx_map_snd]
    exact List.pairwise_lt_range'
  exact List.pairwise_map.mp places

theorem before_irrefl (stop : Stop) : ¬stop.Before stop := by
  rintro (less | ⟨_, other, _⟩)
  · exact Nat.lt_irrefl _ less
  · exact other rfl

section

variable (fs : List Func) (linked : ∀ f ∈ fs, f.Linked)

include linked

theorem order_of_linked (f : Func) (member : f ∈ fs) :
    (∀ id, id ∈ (LoopNest.ofFunc f).order ↔ id < (LoopForest.ofFunc f).loops.length) ∧
      (LoopNest.ofFunc f).order.Pairwise fun i j => j ≠ i ∧ ¬NestedIn (LoopForest.ofFunc f) j i := by
  have recorded := forest_recorded f (linked f member)
  have laminar := forest_laminar f (linked f member)
  exact ⟨order_complete _ recorded laminar, order_sorted _ recorded laminar⟩

theorem mem_stops (stop : Stop) : stop ∈ stops fs ↔ stop.Listed fs := by
  simp only [stops, stopsOf, List.mem_flatMap, List.mem_map, Prod.exists, List.mem_zipIdx_iff_getElem?]
  constructor
  · rintro ⟨f, place, here, loop, left, rfl⟩
    exact ⟨here, ((order_of_linked fs linked f (List.mem_of_getElem? here)).1 loop).mp left⟩
  · rintro ⟨here, bound⟩
    have complete := (order_of_linked fs linked stop.func (List.mem_of_getElem? here)).1
    exact ⟨stop.func, stop.place, here, stop.loop, (complete stop.loop).mpr bound, rfl⟩

theorem innermost_of_listed (stop : Stop) (listed : stop.Listed fs) :
    stop.isInnermost = true ↔ Innermost (LoopForest.ofFunc stop.func) stop.loop := by
  have member := linked stop.func (List.mem_of_getElem? listed.1)
  exact is_innermost_iff _ (forest_recorded stop.func member) (forest_laminar stop.func member) stop.loop listed.2

theorem stops_sorted : (stops fs).Pairwise Stop.Before := by
  refine List.pairwise_flatMap.mpr ⟨?_, ?_⟩
  · rintro ⟨f, place⟩ entry
    have here := List.mem_zipIdx_iff_getElem?.mp entry
    refine List.pairwise_map.mpr ((order_of_linked fs linked f (List.mem_of_getElem? here)).2.imp ?_)
    exact fun ⟨other, outside⟩ => Or.inr ⟨rfl, other, fun nested => outside nested.2⟩
  · refine (numbers_increasing fs).imp fun less first inFirst second inSecond => ?_
    obtain ⟨_, _, rfl⟩ := List.mem_map.mp inFirst
    obtain ⟨_, _, rfl⟩ := List.mem_map.mp inSecond
    exact Or.inl less

theorem number_before (m n : Nat) (a b : Stop) (first : (stops fs)[m]? = some a) (second : (stops fs)[n]? = some b)
    (less : m < n) : a.Before b := by
  obtain ⟨inRow, rfl⟩ := List.getElem?_eq_some_iff.mp first
  obtain ⟨alsoInRow, rfl⟩ := List.getElem?_eq_some_iff.mp second
  exact List.pairwise_iff_getElem.mp (stops_sorted fs linked) m n inRow alsoInRow less

theorem number_less (m n : Nat) (a b : Stop) (first : (stops fs)[m]? = some a) (second : (stops fs)[n]? = some b)
    (notAfter : ¬b.Before a) (different : a ≠ b) : m < n := by
  rcases Nat.lt_trichotomy m n with less | rfl | more
  · exact less
  · exact absurd (Option.some.inj (first.symm.trans second)) different
  · exact absurd (number_before fs linked n m b a second first more) notAfter

theorem numbered_once (stop : Stop) (listed : stop.Listed fs) : ∃! n : Nat, (stops fs)[n]? = some stop := by
  obtain ⟨n, found⟩ := List.mem_iff_getElem?.mp ((mem_stops fs linked stop).mpr listed)
  refine ⟨n, found, fun m again => ?_⟩
  rcases Nat.lt_trichotomy m n with less | same | more
  · exact absurd (number_before fs linked m n stop stop again found less) (before_irrefl stop)
  · exact same
  · exact absurd (number_before fs linked n m stop stop found again more) (before_irrefl stop)

theorem nested_number_less (m n : Nat) (a b : Stop) (first : (stops fs)[m]? = some a)
    (second : (stops fs)[n]? = some b) (nested : a.Nested b) : m < n := by
  apply number_less fs linked m n a b first second
  · rintro (less | ⟨_, _, outside⟩)
    · exact absurd nested.1 (Nat.ne_of_gt less)
    · exact outside nested
  · rintro rfl
    exact inside_irrefl _ nested.2

theorem place_number_less (m n : Nat) (a b : Stop) (first : (stops fs)[m]? = some a)
    (second : (stops fs)[n]? = some b) (earlier : a.place < b.place) : m < n := by
  apply number_less fs linked m n a b first second
  · rintro (less | ⟨same, _⟩)
    · exact Nat.lt_asymm earlier less
    · exact absurd same (Nat.ne_of_gt earlier)
  · rintro rfl
    exact Nat.lt_irrefl _ earlier

end

namespace Run

def leave (run : Run) (stop : Stop) : Run :=
  run.visit stop.func (LoopNest.ofFunc stop.func) (postDominance stop.func).dominates stop.loop

-- A run is one row of loops left.
theorem functions_leave (fs : List Func) (run : Run) : run.functions fs = (stops fs).foldl leave run := by
  induction fs using List.reverseRecOn with
  | nil => rfl
  | append_singleton fs f ih =>
      have row : stops (fs ++ [f]) = stops fs ++ stopsOf fs.length f := by
        simp [stops, List.zipIdx_append]
      rw [row, List.foldl_append, ← ih, stopsOf, List.foldl_map, functions, List.foldl_append]
      rfl

-- The report of a loop left under a number, whatever the files before it.
def Describes (options : Options) (report : Report) (stop : Stop) (number : Nat) : Prop :=
  ∃ sink, report = (processLoop options sink (stop.body number) (postDominance stop.func).dominates).2

theorem describes_loop (asked : Options) (report : Report) (stop : Stop) (number : Nat)
    (describes : Describes asked report stop number) : report.loopId = number ∧ report.func = stop.func.name := by
  obtain ⟨sink, rfl⟩ := describes
  unfold processLoop
  cases writeLoop asked sink (stop.body number) (postDominance stop.func).dominates
  exact ⟨rfl, rfl⟩

theorem leave_innermost (run : Run) (stop : Stop) (innermost : stop.isInnermost = true) :
    run.leave stop =
      let processed := processLoop run.options run.sink (stop.body run.next) (postDominance stop.func).dominates
      ⟨run.options, processed.1, run.next + 1, run.reports ++ [processed.2]⟩ := by
  have blocks : (LoopNest.ofFunc stop.func).blocksOf stop.loop = (LoopForest.ofFunc stop.func).blocks stop.loop :=
    blocks_of_forest _ stop.loop
  rw [Stop.isInnermost] at innermost
  simp only [leave, visit, innermost, if_true, blocks]
  rfl

theorem leave_outer (run : Run) (stop : Stop) (outer : stop.isInnermost = false) :
    run.leave stop = { run with next := run.next + 1 } := by
  rw [Stop.isInnermost] at outer
  simp only [leave, visit, outer]
  rfl

-- The innermost of some loops left, with their numbers.
def reportable (done : List Stop) : List (Stop × Nat) :=
  done.zipIdx.filter fun numbered => numbered.1.isInnermost

theorem reportable_append (done : List Stop) (stop : Stop) :
    reportable (done ++ [stop]) =
      reportable done ++ if stop.isInnermost then [(stop, done.length)] else [] := by
  simp [reportable, List.zipIdx_append, List.filter_singleton]

theorem mem_reportable (done : List Stop) (stop : Stop) (number : Nat) :
    (stop, number) ∈ reportable done ↔ done[number]? = some stop ∧ stop.isInnermost = true := by
  rw [reportable, List.mem_filter, List.mem_zipIdx_iff_getElem?]

theorem reportable_length (done : List Stop) :
    (reportable done).length = done.countP Stop.isInnermost := by
  have positions : done.zipIdx.countP (Stop.isInnermost ∘ Prod.fst) =
      (done.zipIdx.map Prod.fst).countP Stop.isInnermost := List.countP_map.symm
  rw [reportable, ← List.countP_eq_length_filter]
  rwa [List.zipIdx_map_fst] at positions

theorem reportable_increasing (done : List Stop) : (reportable done).Pairwise fun a b => a.2 < b.2 :=
  (numbers_increasing done).filter _

-- What a run is, once it has left some loops.
structure After (asked : Options) (done : List Stop) (run : Run) : Prop where
  options : run.options = asked
  next : run.next = done.length
  reports : List.Forall₂ (fun report numbered => Describes asked report numbered.1 numbered.2) run.reports
    (reportable done)

theorem after_leave (asked : Options) (done : List Stop) (run : Run) (after : After asked done run) (stop : Stop) :
    After asked (done ++ [stop]) (run.leave stop) := by
  have next : run.next + 1 = (done ++ [stop]).length := by
    rw [after.next, List.length_append, List.length_singleton]
  cases innermost : stop.isInnermost with
  | true =>
      rw [leave_innermost run stop innermost]
      refine ⟨after.options, next, ?_⟩
      rw [reportable_append, innermost, if_pos rfl]
      refine List.rel_append after.reports (.cons ⟨run.sink, ?_⟩ .nil)
      rw [after.options, after.next]
  | false =>
      rw [leave_outer run stop innermost]
      refine ⟨after.options, next, ?_⟩
      rw [reportable_append, innermost, if_neg Bool.false_ne_true, List.append_nil]
      exact after.reports

theorem leave_all (options : Options) (sink : Sink) (done : List Stop) :
    After options done (done.foldl leave (Run.new options sink)) := by
  induction done using List.reverseRecOn with
  | nil => exact ⟨rfl, rfl, .nil⟩
  | append_singleton done stop ih =>
      rw [List.foldl_append, List.foldl_cons, List.foldl_nil]
      exact after_leave options done _ ih stop

end Run

section

variable (asked : Options) (reports : List Report) (numbered : List (Stop × Nat))
  (described : List.Forall₂ (fun report entry => Run.Describes asked report entry.1 entry.2) reports numbered)

include described

theorem described_ids : reports.map Report.loopId = numbered.map Prod.snd := by
  induction described with
  | nil => rfl
  | cons first _ ih =>
      rw [List.map_cons, List.map_cons, ih, (Run.describes_loop asked _ _ _ first).1]

theorem described_mem (report : Report) (member : report ∈ reports) :
    ∃ entry ∈ numbered, Run.Describes asked report entry.1 entry.2 := by
  induction described with
  | nil => exact (List.not_mem_nil member).elim
  | @cons _ entry _ rest first _ ih =>
      rcases List.mem_cons.mp member with rfl | later
      · exact ⟨entry, List.mem_cons_self, first⟩
      · obtain ⟨other, listed, describes⟩ := ih later
        exact ⟨other, List.mem_cons_of_mem entry listed, describes⟩

end

-- Every outcome is counted once.
theorem totals_add (reports : List Report) :
    (Summary.ofReports reports).loops = (Summary.ofReports reports).written + (Summary.ofReports reports).failed +
      (Summary.ofReports reports).skipped := by
  simp only [Summary.ofReports]
  induction reports with
  | nil => rfl
  | cons report rest ih =>
      simp only [List.length_cons, List.countP_cons, ih]
      cases report.outcome <;> simp [Outcome.isWritten, Outcome.isFailed, Outcome.isSkipped] <;> omega

section

variable (fs : List Func) (linked : ∀ f ∈ fs, f.Linked)

include linked

theorem reportable_iff (n : Nat) :
    n ∈ (Run.reportable (stops fs)).map Prod.snd ↔
      ∃ stop, (stops fs)[n]? = some stop ∧ Innermost (LoopForest.ofFunc stop.func) stop.loop := by
  have innermost : ∀ stop, (stops fs)[n]? = some stop →
      (stop.isInnermost = true ↔ Innermost (LoopForest.ofFunc stop.func) stop.loop) := fun stop here =>
    innermost_of_listed fs linked stop ((mem_stops fs linked stop).mp (List.mem_of_getElem? here))
  rw [List.mem_map]
  constructor
  · rintro ⟨⟨stop, number⟩, entry, rfl⟩
    obtain ⟨here, alone⟩ := (Run.mem_reportable (stops fs) stop number).mp entry
    exact ⟨stop, here, (innermost stop here).mp alone⟩
  · rintro ⟨stop, here, alone⟩
    exact ⟨(stop, n), (Run.mem_reportable (stops fs) stop n).mpr ⟨here, (innermost stop here).mpr alone⟩, rfl⟩

theorem innermost_stops :
    (stops fs).countP Stop.isInnermost = (fs.flatMap fun f => innermostLoops (LoopForest.ofFunc f)).length := by
  have each : ∀ entry ∈ fs.zipIdx, (stopsOf entry.2 entry.1).countP Stop.isInnermost =
      (innermostLoops (LoopForest.ofFunc entry.1)).length := by
    rintro ⟨f, place⟩ entry
    have member := List.mem_of_getElem? (List.mem_zipIdx_iff_getElem?.mp entry)
    have same : Stop.isInnermost ∘ Stop.mk place f = (LoopNest.ofFunc f).isInnermost := rfl
    rw [stopsOf, List.countP_map, same]
    exact order_innermost (LoopForest.ofFunc f) (forest_recorded f (linked f member))
      (forest_laminar f (linked f member))
  calc (stops fs).countP Stop.isInnermost
      = (fs.zipIdx.map fun entry => (stopsOf entry.2 entry.1).countP Stop.isInnermost).sum := List.countP_flatMap
    _ = (fs.zipIdx.map fun entry => (innermostLoops (LoopForest.ofFunc entry.1)).length).sum := by
        rw [List.map_congr_left each]
    _ = ((fs.zipIdx.map Prod.fst).map fun f => (innermostLoops (LoopForest.ofFunc f)).length).sum := by
        rw [List.map_map]
        rfl
    _ = (fs.flatMap fun f => innermostLoops (LoopForest.ofFunc f)).length := by
        rw [List.zipIdx_map_fst, List.length_flatMap]

end

section

variable (options : Options) (sink : Sink) (fs : List Func)

theorem functions_after : Run.After options (stops fs) ((Run.new options sink).functions fs) := by
  rw [Run.functions_leave]
  exact Run.leave_all options sink (stops fs)

theorem report_ids : ((Run.new options sink).functions fs).reports.map Report.loopId =
    (Run.reportable (stops fs)).map Prod.snd := described_ids options _ _ (functions_after options sink fs).reports

theorem report_ids_increasing : (((Run.new options sink).functions fs).reports.map Report.loopId).Pairwise (· < ·) := by
  rw [report_ids]
  exact List.pairwise_map.mpr (Run.reportable_increasing (stops fs))

theorem reports_counted (linked : ∀ f ∈ fs, f.Linked) : ((Run.new options sink).functions fs).summary.loops =
    (fs.flatMap fun f => innermostLoops (LoopForest.ofFunc f)).length := by
  have lengths := congrArg List.length (report_ids options sink fs)
  rw [List.length_map, List.length_map, Run.reportable_length, innermost_stops fs linked] at lengths
  exact lengths

end

-- What a run over functions does with their loops. The number of a loop is its place in the row of stops.
structure Numbered (fs : List Func) (start run : Run) : Prop where
  -- The traversal of each function comes to an end, with no bound on its depth.
  ends : ∀ f ∈ fs, (LoopNest.ofFunc f).Leaves (LoopForest.ofFunc f).topLevel (LoopNest.ofFunc f).order
  row : (stops fs).foldl Run.leave start = run
  once : ∀ stop : Stop, stop.Listed fs → ∃! n : Nat, (stops fs)[n]? = some stop
  only : ∀ stop ∈ stops fs, stop.Listed fs
  -- Each stop takes the next number of the run.
  consecutive : ∀ n ≤ (stops fs).length, (((stops fs).take n).foldl Run.leave start).next = n
  -- Post-order: a loop takes its number behind all loops nested in it.
  innerFirst : ∀ (m n : Nat) (a b : Stop), (stops fs)[m]? = some a → (stops fs)[n]? = some b → a.Nested b → m < n
  earlierFirst : ∀ (m n : Nat) (a b : Stop), (stops fs)[m]? = some a → (stops fs)[n]? = some b →
    a.place < b.place → m < n
  reported : ∀ n, n ∈ run.reports.map Report.loopId ↔
    ∃ stop, (stops fs)[n]? = some stop ∧ Innermost (LoopForest.ofFunc stop.func) stop.loop
  increasing : (run.reports.map Report.loopId).Pairwise (· < ·)
  named : ∀ report ∈ run.reports, ∃ stop, (stops fs)[report.loopId]? = some stop ∧
    report.func = stop.func.name ∧ Run.Describes start.options report stop report.loopId
  totals : run.summary.loops = run.summary.written + run.summary.failed + run.summary.skipped
  counted : run.summary.loops = (fs.flatMap fun f => innermostLoops (LoopForest.ofFunc f)).length

theorem loops_numbered (options : Options) (sink : Sink) (fs : List Func) (linked : ∀ f ∈ fs, f.Linked) :
    Numbered fs (Run.new options sink) ((Run.new options sink).functions fs) := by
  have ids := report_ids options sink fs
  exact
    { ends := fun f member => order_leaves _ (forest_recorded f (linked f member))
      row := (Run.functions_leave fs (Run.new options sink)).symm
      once := numbered_once fs linked
      only := fun stop member => (mem_stops fs linked stop).mp member
      consecutive := by
        intro n bound
        rw [(Run.leave_all options sink _).next, List.length_take, Nat.min_eq_left bound]
      innerFirst := nested_number_less fs linked
      earlierFirst := place_number_less fs linked
      reported := by
        rw [ids]
        exact reportable_iff fs linked
      increasing := report_ids_increasing options sink fs
      named := by
        intro report member
        obtain ⟨⟨stop, number⟩, entry, describes⟩ :=
          described_mem options _ _ (functions_after options sink fs).reports report member
        obtain ⟨rfl, name⟩ := Run.describes_loop options report stop number describes
        exact ⟨stop, ((Run.mem_reportable (stops fs) stop _).mp entry).1, name, describes⟩
      totals := totals_add _
      counted := reports_counted options sink fs linked }

-- Two functions with a loop inside a loop each.
theorem two_functions_numbered :
    let fs := [Func.twoLoops, Func.twoLoops]
    let start := Run.new Options.default ⟨[], fun _ => none⟩
    (∀ f ∈ fs, f.Linked) ∧ Numbered fs start (start.functions fs) ∧
      (stops fs).map (fun stop => (stop.place, stop.loop)) = [(0, 1), (0, 0), (1, 1), (1, 0)] := by
  have linked : ∀ f ∈ [Func.twoLoops, Func.twoLoops], f.Linked := by
    simp [Func.two_loops_linked]
  exact ⟨linked, loops_numbered Options.default ⟨[], fun _ => none⟩ _ linked, by decide⟩

end LoopDeps
