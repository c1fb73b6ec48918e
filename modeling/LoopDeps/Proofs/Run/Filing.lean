import LoopDeps.Proofs.Graph.Naming
import LoopDeps.Proofs.Output.Fields
import LoopDeps.Proofs.Run.Numbering
set_option autoImplicit false

/- The files of a run. Each written loop has files of its own, under names that no other loop uses, so that none
   is replaced and the files are those of the written loops, one after the other. -/
namespace LoopDeps

open LoopDeps.Flow LoopDeps.Output

section

variable (stem kind suffix : String) (cut : suffix.toList = '.' :: stem.toList ++ '.' :: kind.toList)
  (freeStem : '.' ∉ stem.toList) (freeKind : '.' ∉ kind.toList)

include cut freeStem freeKind

-- A name is a number, a stem and a kind, with dots between them.
theorem name_parts (number : Nat) :
    (toString number ++ suffix).toList.splitOn '.' = [digitsOf number, stem.toList, kind.toList] := by
  have parts : (toString number ++ suffix).toList = led '.' (digitsOf number) [stem.toList, kind.toList] := by
    rw [String.toList_append, cut]
    simp [led, digitsOf]
  have noDot : '.' ∉ digitsOf number := fun member => absurd (digit_of_mem number '.' member) (by decide)
  rw [parts]
  apply split_led
  simp [noDot, freeStem, freeKind]

end

theorem dot_file_parts (number : Nat) :
    (dotFile number).toList.splitOn '.' = [digitsOf number, "loop_analysis_graph".toList, "dot".toList] :=
  name_parts "loop_analysis_graph" "dot" ".loop_analysis_graph.dot" (by decide) (by decide) (by decide) number

theorem record_file_parts (number : Nat) :
    (recordFile number).toList.splitOn '.' = [digitsOf number, "loop_analysis_graph".toList, "graph".toList] :=
  name_parts "loop_analysis_graph" "graph" ".loop_analysis_graph.graph" (by decide) (by decide) (by decide) number

theorem dot_file_injective (m n : Nat) (same : dotFile m = dotFile n) : m = n := by
  have parts := dot_file_parts m
  rw [same, dot_file_parts n] at parts
  exact digits_of_injective m n (List.head_eq_of_cons_eq parts).symm

theorem record_file_injective (m n : Nat) (same : recordFile m = recordFile n) : m = n := by
  have parts := record_file_parts m
  rw [same, record_file_parts n] at parts
  exact digits_of_injective m n (List.head_eq_of_cons_eq parts).symm

theorem dot_ne_record_file (m n : Nat) : dotFile m ≠ recordFile n := by
  intro same
  have parts := dot_file_parts m
  rw [same, record_file_parts n] at parts
  have kinds : "graph".toList = "dot".toList := by simpa using (List.tail_eq_of_cons_eq parts)
  exact absurd kinds (by decide)

-- The names of the files of a loop.
def NameOf (number : Nat) (name : String) : Prop := name = dotFile number ∨ name = recordFile number

theorem name_of_one (m n : Nat) (name : String) (first : NameOf m name) (second : NameOf n name) : m = n := by
  rcases first with rfl | rfl
  · rcases second with same | same
    · exact dot_file_injective m n same
    · exact absurd same (dot_ne_record_file m n)
  · rcases second with same | same
    · exact absurd same.symm (dot_ne_record_file n m)
    · exact record_file_injective m n same

namespace Sink

-- A sink in memory, which refuses nothing.
def memory (files : List (String × String)) : Sink := ⟨files, fun _ => none⟩

theorem store_fresh (files : List (String × String)) (name text : String) (fresh : name ∉ files.map Prod.fst) :
    store files name text = files ++ [(name, text)] := by
  have kept : files.filter (fun file => file.1 != name) = files := by
    apply List.filter_eq_self.mpr
    intro file member
    simpa using fun same : file.1 = name => fresh (same ▸ List.mem_map_of_mem member)
  rw [store, kept]

theorem write_all_fresh (files more : List (String × String)) (once : ((files ++ more).map Prod.fst).Nodup) :
    (memory files).writeAll more = (memory (files ++ more), none) := by
  induction more generalizing files with
  | nil => rw [List.append_nil, writeAll]
  | cons file rest ih =>
      obtain ⟨name, text⟩ := file
      have split : files ++ (name, text) :: rest = (files ++ [(name, text)]) ++ rest := by simp
      rw [split] at once ⊢
      have fresh : name ∉ files.map Prod.fst := by
        rw [List.append_assoc, List.map_append] at once
        exact fun member => (List.nodup_append.mp once).2.2 name member name (by simp) rfl
      rw [writeAll]
      simp only [write, memory, store_fresh files name text fresh]
      exact ih (files ++ [(name, text)]) once

end Sink

namespace Stop

def built (stop : Stop) (number : Nat) : Except LoopError Graph :=
  Graph.construct (stop.body number) (postDominance stop.func).dominates

-- The files of a loop, told from the loop alone.
def files (asked : Options) (numbered : Stop × Nat) : List (String × String) :=
  match numbered.1.built numbered.2 with
  | .ok g => asked.artifacts g
  | .error _ => []

def outcome (numbered : Stop × Nat) : Outcome :=
  match numbered.1.built numbered.2 with
  | .ok g => .ofGraph g
  | .error error => .ofError error

end Stop

theorem mem_artifacts (asked : Options) (g : Graph) (name text : String) :
    (name, text) ∈ asked.artifacts g ↔
      (asked.dot = true ∧ name = dotFile g.loopId ∧ text = Dot.render g) ∨
        asked.record = true ∧ name = recordFile g.loopId ∧ text = Record.render g := by
  unfold Options.artifacts
  cases asked.dot <;> cases asked.record <;> simp

theorem artifacts_once (asked : Options) (g : Graph) : ((asked.artifacts g).map Prod.fst).Nodup := by
  unfold Options.artifacts
  cases asked.dot <;> cases asked.record <;> simp [dot_ne_record_file]

theorem built_number (body : Body) (pdom : ControlLinks.PostDominates) (g : Graph)
    (built : Graph.construct body pdom = .ok g) : g.loopId = body.loopId :=
  congrArg Prod.fst (Graph.construct_names body pdom g built)

theorem artifacts_named (asked : Options) (g : Graph) (file : String × String) (member : file ∈ asked.artifacts g) :
    NameOf g.loopId file.1 := by
  rcases (mem_artifacts asked g file.1 file.2).mp member with ⟨_, same, _⟩ | ⟨_, same, _⟩
  · exact Or.inl same
  · exact Or.inr same

-- The files of loops with different numbers, where each has the names of its own number.
theorem numbered_files_once {α : Type} (files : α × Nat → List (String × String))
    (named : ∀ entry, ∀ file ∈ files entry, NameOf entry.2 file.1) (each : ∀ entry, ((files entry).map Prod.fst).Nodup)
    (numbered : List (α × Nat)) (increasing : numbered.Pairwise fun a b => a.2 < b.2) :
    ((numbered.flatMap files).map Prod.fst).Nodup := by
  rw [List.map_flatMap]
  refine List.nodup_flatMap.mpr ⟨fun entry _ => each entry, ?_⟩
  apply increasing.imp
  intro a b less name first second
  obtain ⟨file, here, rfl⟩ := List.mem_map.mp first
  obtain ⟨other, there, same⟩ := List.mem_map.mp second
  exact Nat.ne_of_lt less (name_of_one a.2 b.2 file.1 (named a file here) (same ▸ named b other there))

theorem files_named (asked : Options) (numbered : Stop × Nat) (file : String × String)
    (member : file ∈ Stop.files asked numbered) : NameOf numbered.2 file.1 := by
  unfold Stop.files at member
  cases built : numbered.1.built numbered.2 with
  | error error =>
      rw [built] at member
      cases member
  | ok g =>
      rw [built] at member
      have number : g.loopId = numbered.2 := built_number (numbered.1.body numbered.2) _ g built
      exact number ▸ artifacts_named asked g file member

theorem files_once (asked : Options) (numbered : Stop × Nat) : ((Stop.files asked numbered).map Prod.fst).Nodup := by
  unfold Stop.files
  cases numbered.1.built numbered.2 with
  | error error => exact List.nodup_nil
  | ok g => exact artifacts_once asked g

theorem all_files_once (asked : Options) (numbered : List (Stop × Nat))
    (increasing : numbered.Pairwise fun a b => a.2 < b.2) :
    ((numbered.flatMap (Stop.files asked)).map Prod.fst).Nodup :=
  numbered_files_once _ (files_named asked) (files_once asked) numbered increasing

theorem write_loop_files (asked : Options) (files : List (String × String)) (stop : Stop) (number : Nat)
    (once : ((files ++ Stop.files asked (stop, number)).map Prod.fst).Nodup) :
    writeLoop asked (Sink.memory files) (stop.body number) (postDominance stop.func).dominates =
      (Sink.memory (files ++ Stop.files asked (stop, number)), Stop.outcome (stop, number)) := by
  simp only [Stop.files, Stop.built] at once
  simp only [Stop.files, Stop.outcome, Stop.built, writeLoop]
  cases built : Graph.construct (stop.body number) (postDominance stop.func).dominates with
  | error error => rw [List.append_nil]
  | ok g =>
      rw [built] at once
      simp only [Sink.write_all_fresh files (asked.artifacts g) once]

namespace Run

-- What a run over a sink in memory has stored and reported, once it has left some loops.
structure Filed (asked : Options) (done : List Stop) (run : Run) : Prop where
  after : After asked done run
  sink : run.sink = Sink.memory ((reportable done).flatMap (Stop.files asked))
  reports : run.reports.map (fun report => (report.loopId, report.outcome)) =
    (reportable done).map fun numbered => (numbered.2, Stop.outcome numbered)

theorem filed_leave (asked : Options) (done : List Stop) (run : Run) (filed : Filed asked done run) (stop : Stop) :
    Filed asked (done ++ [stop]) (run.leave stop) := by
  have after := after_leave asked done run filed.after stop
  cases innermost : stop.isInnermost with
  | true =>
      have row : reportable (done ++ [stop]) = reportable done ++ [(stop, done.length)] := by
        rw [reportable_append, innermost, if_pos rfl]
      have files : (reportable (done ++ [stop])).flatMap (Stop.files asked) =
          (reportable done).flatMap (Stop.files asked) ++ Stop.files asked (stop, done.length) := by
        rw [row, List.flatMap_append, List.flatMap_singleton]
      have once := all_files_once asked _ (reportable_increasing (done ++ [stop]))
      rw [files] at once
      have stored := write_loop_files asked _ stop done.length once
      have left := leave_innermost run stop innermost
      rw [filed.after.options, filed.after.next, filed.sink] at left
      simp only [processLoop, stored] at left
      refine ⟨after, ?_, ?_⟩
      · rw [left, files]
      · rw [left, row, List.map_append, List.map_append, filed.reports]
        simp only [List.map_singleton, Stop.body]
  | false =>
      have row : reportable (done ++ [stop]) = reportable done := by
        rw [reportable_append, innermost, if_neg Bool.false_ne_true, List.append_nil]
      have left := leave_outer run stop innermost
      exact ⟨after, by rw [left, row]; exact filed.sink, by rw [left, row]; exact filed.reports⟩

theorem files_all (asked : Options) (done : List Stop) :
    Filed asked done (done.foldl leave (Run.new asked (Sink.memory []))) := by
  induction done using List.reverseRecOn with
  | nil => exact ⟨⟨rfl, rfl, .nil⟩, rfl, rfl⟩
  | append_singleton done stop ih =>
      rw [List.foldl_append, List.foldl_cons, List.foldl_nil]
      exact filed_leave asked done _ ih stop

theorem report_of_stop (asked : Options) (done : List Stop) (run : Run) (filed : Filed asked done run)
    (report : Report) (member : report ∈ run.reports) :
    ∃ stop, (stop, report.loopId) ∈ reportable done ∧ report.outcome = Stop.outcome (stop, report.loopId) := by
  have told : (report.loopId, report.outcome) ∈ (reportable done).map fun numbered => (numbered.2, Stop.outcome numbered) :=
    filed.reports ▸ List.mem_map_of_mem member
  obtain ⟨⟨stop, number⟩, listed, same⟩ := List.mem_map.mp told
  obtain ⟨rfl, outcome⟩ := Prod.mk.inj same
  exact ⟨stop, listed, outcome.symm⟩

theorem stop_of_reportable (asked : Options) (done : List Stop) (run : Run) (filed : Filed asked done run)
    (stop : Stop) (number : Nat) (listed : (stop, number) ∈ reportable done) :
    ∃ report ∈ run.reports, report.loopId = number ∧ report.outcome = Stop.outcome (stop, number) := by
  have told : (number, Stop.outcome (stop, number)) ∈ run.reports.map fun report => (report.loopId, report.outcome) :=
    filed.reports ▸ List.mem_map_of_mem listed
  obtain ⟨report, member, same⟩ := List.mem_map.mp told
  obtain ⟨rfl, outcome⟩ := Prod.mk.inj same
  exact ⟨report, member, rfl, outcome⟩

end Run

theorem outcome_written (numbered : Stop × Nat) :
    (Stop.outcome numbered).isWritten = true ↔ ∃ g, numbered.1.built numbered.2 = .ok g := by
  unfold Stop.outcome
  cases built : numbered.1.built numbered.2 with
  | ok g => simp [Outcome.ofGraph, Outcome.isWritten]
  | error error => cases error <;> simp [Outcome.ofError, Outcome.isWritten]

-- The graph of each loop reported as written.
def Graphed (fs : List Func) (report : Report) (g : Graph) : Prop :=
  report.outcome.isWritten = true ∧ ∃ stop, (stops fs)[report.loopId]? = some stop ∧
    Graph.construct (stop.body report.loopId) (postDominance stop.func).dominates = .ok g

-- What a run has stored, and what it has not.
structure Stored (asked : Options) (fs : List Func) (run : Run) : Prop where
  graphs : ∀ report ∈ run.reports, report.outcome.isWritten = true → ∃ g, Graphed fs report g ∧ report.outcome = .ofGraph g
  exactly : ∀ name text, (name, text) ∈ run.sink.files ↔ ∃ report ∈ run.reports, ∃ g, Graphed fs report g ∧
    (asked.dot = true ∧ name = dotFile report.loopId ∧ text = Dot.render g ∨
      asked.record = true ∧ name = recordFile report.loopId ∧ text = Record.render g)
  -- No name comes up twice.
  once : (run.sink.files.map Prod.fst).Nodup
  numbers : (run.reports.map Report.loopId).Nodup
  unwritten : ∀ report ∈ run.reports, report.outcome.isWritten = false →
    ∀ file ∈ run.sink.files, file.1 ≠ dotFile report.loopId ∧ file.1 ≠ recordFile report.loopId

section

variable (asked : Options) (fs : List Func) (run : Run) (filed : Run.Filed asked (stops fs) run)

include filed

theorem graph_of_written (report : Report) (member : report ∈ run.reports) (written : report.outcome.isWritten = true) :
    ∃ g, Graphed fs report g ∧ report.outcome = .ofGraph g := by
  obtain ⟨stop, listed, outcome⟩ := Run.report_of_stop asked (stops fs) run filed report member
  obtain ⟨g, built⟩ := (outcome_written (stop, report.loopId)).mp (outcome ▸ written)
  have here := ((Run.mem_reportable (stops fs) stop report.loopId).mp listed).1
  refine ⟨g, ⟨written, stop, here, built⟩, ?_⟩
  rw [outcome, Stop.outcome, built]

theorem file_of_graph (report : Report) (member : report ∈ run.reports) (g : Graph) (graphed : Graphed fs report g)
    (file : String × String) (artifact : file ∈ asked.artifacts g) : file ∈ run.sink.files := by
  obtain ⟨_, stop, here, built⟩ := graphed
  obtain ⟨same, listed, _⟩ := Run.report_of_stop asked (stops fs) run filed report member
  cases Option.some.inj (here.symm.trans ((Run.mem_reportable (stops fs) same report.loopId).mp listed).1)
  have built : stop.built report.loopId = .ok g := built
  rw [filed.sink]
  apply List.mem_flatMap_of_mem listed
  rwa [Stop.files, built]

theorem graph_of_file (file : String × String) (stored : file ∈ run.sink.files) :
    ∃ report ∈ run.reports, ∃ g, Graphed fs report g ∧ file ∈ asked.artifacts g := by
  rw [filed.sink] at stored
  obtain ⟨⟨stop, number⟩, listed, inFiles⟩ := List.mem_flatMap.mp stored
  obtain ⟨report, member, rfl, outcome⟩ := Run.stop_of_reportable asked (stops fs) run filed stop number listed
  have here := ((Run.mem_reportable (stops fs) stop report.loopId).mp listed).1
  simp only [Stop.files] at inFiles
  cases built : stop.built report.loopId with
  | error error =>
      rw [built] at inFiles
      cases inFiles
  | ok g =>
      rw [built] at inFiles
      have written := (outcome_written (stop, report.loopId)).mpr ⟨g, built⟩
      exact ⟨report, member, g, ⟨outcome ▸ written, stop, here, built⟩, inFiles⟩

theorem report_numbers_once : (run.reports.map Report.loopId).Nodup := by
  rw [described_ids asked _ _ filed.after.reports]
  exact (List.pairwise_map.mpr (Run.reportable_increasing (stops fs))).imp Nat.ne_of_lt

theorem stored_of_filed : Stored asked fs run := by
  have numbered : ∀ report g, Graphed fs report g → g.loopId = report.loopId :=
    fun report g ⟨_, stop, _, built⟩ => built_number (stop.body report.loopId) _ g built
  have named : ∀ name text, (name, text) ∈ run.sink.files ↔ ∃ report ∈ run.reports, ∃ g, Graphed fs report g ∧
      (asked.dot = true ∧ name = dotFile report.loopId ∧ text = Dot.render g ∨
        asked.record = true ∧ name = recordFile report.loopId ∧ text = Record.render g) := by
    intro name text
    constructor
    · intro stored
      obtain ⟨report, member, g, graphed, artifact⟩ := graph_of_file asked fs run filed (name, text) stored
      rw [mem_artifacts, numbered report g graphed] at artifact
      exact ⟨report, member, g, graphed, artifact⟩
    · rintro ⟨report, member, g, graphed, artifact⟩
      apply file_of_graph asked fs run filed report member g graphed
      rwa [mem_artifacts, numbered report g graphed]
  have once : (run.sink.files.map Prod.fst).Nodup := by
    rw [filed.sink]
    exact all_files_once asked _ (Run.reportable_increasing (stops fs))
  have numbers := report_numbers_once asked fs run filed
  have unwritten : ∀ report ∈ run.reports, report.outcome.isWritten = false →
      ∀ file ∈ run.sink.files, ¬NameOf report.loopId file.1 := by
    intro report member unwritten file stored name
    obtain ⟨other, alsoMember, g, graphed, artifact⟩ := (named file.1 file.2).mp stored
    have otherName : NameOf other.loopId file.1 := artifact.imp (fun dot => dot.2.1) fun record => record.2.1
    have same := List.inj_on_of_nodup_map numbers member alsoMember (name_of_one _ _ _ name otherName)
    rw [same, graphed.1] at unwritten
    cases unwritten
  exact
    { graphs := graph_of_written asked fs run filed
      exactly := named
      once := once
      numbers := numbers
      unwritten := fun report member fails file stored => not_or.mp (unwritten report member fails file stored) }

end

-- No two files of loops have one name.
def NamesApart : Prop :=
  (∀ m n, dotFile m = dotFile n → m = n) ∧ (∀ m n, recordFile m = recordFile n → m = n) ∧
    ∀ m n, dotFile m ≠ recordFile n

theorem run_stores_written (asked : Options) (fs : List Func) :
    Stored asked fs ((Run.new asked (Sink.memory [])).functions fs) ∧ NamesApart := by
  refine ⟨?_, dot_file_injective, record_file_injective, dot_ne_record_file⟩
  rw [Run.functions_leave]
  exact stored_of_filed asked fs _ (Run.files_all asked (stops fs))

end LoopDeps
