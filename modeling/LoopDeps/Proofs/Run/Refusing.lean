import LoopDeps.Proofs.Run.Filing
set_option autoImplicit false

/- A run over a sink that refuses some files. A loop hands out its drawing and then its record, and stops at the
   first file that is refused; nothing is taken back. Each name is handed out once in a run, so that a refusal for
   each name stands for any pattern of refusals. -/
namespace LoopDeps

open LoopDeps.Flow LoopDeps.ControlLinks

namespace Sink

-- The texts of the files with a name.
def textsUnder (name : String) (files : List (String × String)) : List String :=
  (files.filter fun file => file.1 == name).map Prod.snd

def texts (sink : Sink) (name : String) : List String := textsUnder name sink.files

def accepts (refusal : String → Option String) (file : String × String) : Bool := (refusal file.1).isNone

def keep (sink : Sink) (file : String × String) : Sink := { sink with files := store sink.files file.1 file.2 }

def keepAll (sink : Sink) (files : List (String × String)) : Sink := files.foldl keep sink

theorem texts_keep (sink : Sink) (file : String × String) (name : String) :
    (sink.keep file).texts name = if file.1 = name then [file.2] else sink.texts name := by
  by_cases same : file.1 = name
  · rw [if_pos same, ← same]
    simp [texts, textsUnder, keep, store, List.filter_append, List.filter_filter]
  · have kept : (sink.files.filter fun stored => stored.1 != file.1).filter (fun stored => stored.1 == name) =
        sink.files.filter fun stored => stored.1 == name := by
      rw [List.filter_filter]
      apply List.filter_congr
      intro stored _
      by_cases here : stored.1 = name
      · simp [here, Ne.symm same]
      · simp [here]
    rw [if_neg same]
    simp [texts, textsUnder, keep, store, List.filter_append, kept, same]

theorem keep_all_refusal (files : List (String × String)) (sink : Sink) : (sink.keepAll files).refusal = sink.refusal := by
  induction files generalizing sink with
  | nil => rfl
  | cons file rest ih => exact ih (sink.keep file)

theorem keep_all_append (sink : Sink) (files more : List (String × String)) :
    sink.keepAll (files ++ more) = (sink.keepAll files).keepAll more := List.foldl_append

theorem texts_under_append (name : String) (files more : List (String × String)) :
    textsUnder name (files ++ more) = textsUnder name files ++ textsUnder name more := by
  simp [textsUnder]

theorem texts_under_single (name : String) (file : String × String) :
    textsUnder name [file] = if file.1 = name then [file.2] else [] := by
  by_cases same : file.1 = name <;> simp [textsUnder, same]

theorem texts_under_nil (files : List (String × String)) (name : String) :
    textsUnder name files = [] ↔ name ∉ files.map Prod.fst := by
  rw [textsUnder, List.map_eq_nil_iff, List.filter_eq_nil_iff, List.mem_map]
  constructor
  · rintro different ⟨file, member, same⟩
    exact different file member (by simpa using same)
  · intro absent file member same
    exact absent ⟨file, member, by simpa using same⟩

theorem texts_under_once (files : List (String × String)) (once : (files.map Prod.fst).Nodup)
    (file : String × String) (member : file ∈ files) : textsUnder file.1 files = [file.2] := by
  induction files with
  | nil => cases member
  | cons first rest ih =>
      rw [List.map_cons, List.nodup_cons] at once
      rcases List.mem_cons.mp member with rfl | later
      · have others := (texts_under_nil rest file.1).mpr once.1
        simpa [textsUnder] using others
      · have different : first.1 ≠ file.1 := fun same => once.1 (same ▸ List.mem_map_of_mem later)
        have others := ih once.2 later
        simpa [textsUnder, different] using others

-- New files replace the old ones of their names and leave the rest.
theorem texts_keep_all (files : List (String × String)) (sink : Sink) (once : (files.map Prod.fst).Nodup)
    (name : String) :
    (sink.keepAll files).texts name =
      if textsUnder name files = [] then sink.texts name else textsUnder name files := by
  induction files generalizing sink with
  | nil => rfl
  | cons first rest ih =>
      rw [List.map_cons, List.nodup_cons] at once
      have later := ih (sink.keep first) once.2
      rw [texts_keep] at later
      by_cases same : first.1 = name
      · have absent : textsUnder name rest = [] := (texts_under_nil rest name).mpr (same ▸ once.1)
        rw [if_pos absent, if_pos same] at later
        have here : textsUnder name (first :: rest) = [first.2] := by
          simpa [textsUnder, same] using absent
        rw [here, if_neg (List.cons_ne_nil _ _)]
        exact later
      · rw [if_neg same] at later
        have here : textsUnder name (first :: rest) = textsUnder name rest := by simp [textsUnder, same]
        rw [here]
        exact later

-- Files are stored up to the first one that is refused.
theorem write_all_prefix (files : List (String × String)) (sink : Sink) :
    sink.writeAll files =
      (sink.keepAll (files.takeWhile (accepts sink.refusal)),
        (files.findSome? fun file => sink.refusal file.1).map .system) := by
  induction files generalizing sink with
  | nil => rfl
  | cons file rest ih =>
      cases refused : sink.refusal file.1 with
      | none =>
          have accepted : accepts sink.refusal file = true := by simp [accepts, refused]
          rw [List.takeWhile_cons_of_pos accepted, List.findSome?_cons_of_isNone (by simp [refused])]
          simp only [writeAll, write, refused]
          exact ih (sink.keep file)
      | some reason =>
          have rejected : accepts sink.refusal file = false := by simp [accepts, refused]
          simp [writeAll, write, refused, rejected, keepAll]

end Sink

-- A loop of a function as a run comes to it.
structure Visit where
  func : Func
  nest : LoopNest
  pdom : PostDominates
  loop : LoopId

namespace Visit

def isInnermost (visit : Visit) : Bool := visit.nest.isInnermost visit.loop

def body (visit : Visit) (number : Nat) : Body := ⟨number, visit.func, visit.nest.blocksOf visit.loop⟩

def built (visit : Visit) (number : Nat) : Except LoopError Graph :=
  Graph.construct (visit.body number) visit.pdom

end Visit

section

variable (asked : Options) (refusal : String → Option String)

namespace Visit

-- The files of a loop that are stored.
def stored (numbered : Visit × Nat) : List (String × String) :=
  match numbered.1.built numbered.2 with
  | .ok g => (asked.artifacts g).takeWhile (Sink.accepts refusal)
  | .error _ => []

def outcome (numbered : Visit × Nat) : Outcome :=
  match numbered.1.built numbered.2 with
  | .error error => .ofError error
  | .ok g =>
      match (asked.artifacts g).findSome? fun file => refusal file.1 with
      | none => .ofGraph g
      | some reason => .ofError (.system reason)

def report (numbered : Visit × Nat) : Report :=
  { loopId := numbered.2
    func := numbered.1.func.name
    outcome := outcome asked refusal numbered
    listing := if asked.listLoops then some (numbered.1.body numbered.2).listing else none }

end Visit

theorem write_loop_stores (sink : Sink) (visit : Visit) (number : Nat) :
    writeLoop asked sink (visit.body number) visit.pdom =
      (sink.keepAll (Visit.stored asked sink.refusal (visit, number)),
        Visit.outcome asked sink.refusal (visit, number)) := by
  unfold writeLoop Visit.stored Visit.outcome Visit.built
  cases Graph.construct (visit.body number) visit.pdom with
  | error error => rfl
  | ok g =>
      simp only [Sink.write_all_prefix]
      cases (asked.artifacts g).findSome? fun file => sink.refusal file.1 <;> rfl

end

namespace Run

def come (run : Run) (visit : Visit) : Run := run.visit visit.func visit.nest visit.pdom visit.loop

theorem function_comes (run : Run) (f : Func) (nest : LoopNest) (pdom : PostDominates) :
    run.function f nest pdom = (nest.order.map (Visit.mk f nest pdom)).foldl come run := by
  rw [List.foldl_map]
  rfl

-- The innermost loops among some that a run comes to, under the numbers from the first one on.
def told (first : Nat) (visits : List Visit) : List (Visit × Nat) :=
  (visits.zipIdx first).filter fun numbered => numbered.1.isInnermost

theorem told_append (first : Nat) (visits : List Visit) (visit : Visit) :
    told first (visits ++ [visit]) =
      told first visits ++ if visit.isInnermost then [(visit, first + visits.length)] else [] := by
  simp [told, List.zipIdx_append, List.filter_singleton]

theorem told_increasing (first : Nat) (visits : List Visit) : (told first visits).Pairwise fun a b => a.2 < b.2 := by
  have places : ((visits.zipIdx first).map Prod.snd).Pairwise (· < ·) := by
    rw [List.zipIdx_map_snd]
    exact List.pairwise_lt_range'
  exact (List.pairwise_map.mp places).filter _

theorem come_innermost (run : Run) (visit : Visit) (innermost : visit.isInnermost = true) :
    run.come visit =
      { options := run.options
        sink := run.sink.keepAll (Visit.stored run.options run.sink.refusal (visit, run.next))
        next := run.next + 1
        reports := run.reports ++ [Visit.report run.options run.sink.refusal (visit, run.next)] } := by
  have stores := write_loop_stores run.options run.sink visit run.next
  unfold Visit.isInnermost at innermost
  simp only [Visit.body] at stores
  simp only [come, Run.visit, innermost, if_true, processLoop, stores]
  rfl

theorem come_outer (run : Run) (visit : Visit) (outer : visit.isInnermost = false) :
    run.come visit = { run with next := run.next + 1 } := by
  unfold Visit.isInnermost at outer
  simp only [come, Run.visit, outer]
  rfl

-- A run tells what it stores and reports from the loops alone, whatever was stored before.
structure Came (start : Run) (visits : List Visit) (run : Run) : Prop where
  options : run.options = start.options
  next : run.next = start.next + visits.length
  sink : run.sink =
    start.sink.keepAll ((told start.next visits).flatMap (Visit.stored start.options start.sink.refusal))
  reports : run.reports =
    start.reports ++ (told start.next visits).map (Visit.report start.options start.sink.refusal)

theorem came_next (start run : Run) (visits : List Visit) (came : Came start visits run) (visit : Visit) :
    Came start (visits ++ [visit]) (run.come visit) := by
  have next : run.next + 1 = start.next + (visits ++ [visit]).length := by
    rw [came.next, List.length_append, List.length_singleton, Nat.add_assoc]
  have refusal : run.sink.refusal = start.sink.refusal := by
    rw [came.sink, Sink.keep_all_refusal]
  cases innermost : visit.isInnermost with
  | true =>
      have row := told_append start.next visits visit
      rw [innermost, if_pos rfl, ← came.next] at row
      rw [come_innermost run visit innermost, came.options, refusal]
      refine ⟨rfl, next, ?_, ?_⟩
      · rw [row, List.flatMap_append, List.flatMap_singleton, Sink.keep_all_append, ← came.sink]
      · rw [row, List.map_append, came.reports, List.append_assoc, List.map_singleton]
  | false =>
      have row := told_append start.next visits visit
      rw [innermost, if_neg Bool.false_ne_true, List.append_nil] at row
      rw [come_outer run visit innermost]
      refine ⟨came.options, next, ?_, ?_⟩
      · rw [row]
        exact came.sink
      · rw [row]
        exact came.reports

theorem come_all (start : Run) (visits : List Visit) : Came start visits (visits.foldl come start) := by
  induction visits using List.reverseRecOn with
  | nil => exact ⟨rfl, rfl, rfl, (List.append_nil _).symm⟩
  | append_singleton visits visit ih =>
      rw [List.foldl_append, List.foldl_cons, List.foldl_nil]
      exact came_next start _ visits ih visit

end Run

section

variable (asked : Options) (refusal : String → Option String)

theorem stored_named (numbered : Visit × Nat) (file : String × String)
    (member : file ∈ Visit.stored asked refusal numbered) : NameOf numbered.2 file.1 := by
  unfold Visit.stored at member
  cases built : numbered.1.built numbered.2 with
  | error error =>
      rw [built] at member
      cases member
  | ok g =>
      rw [built] at member
      have number : g.loopId = numbered.2 := built_number (numbered.1.body numbered.2) _ g built
      exact number ▸ artifacts_named asked g file ((List.takeWhile_sublist _).subset member)

theorem stored_once (numbered : Visit × Nat) : ((Visit.stored asked refusal numbered).map Prod.fst).Nodup := by
  unfold Visit.stored
  cases numbered.1.built numbered.2 with
  | error error => exact List.nodup_nil
  | ok g => exact (artifacts_once asked g).sublist ((List.takeWhile_sublist _).map Prod.fst)

theorem all_stored_once (numbered : List (Visit × Nat)) (increasing : numbered.Pairwise fun a b => a.2 < b.2) :
    ((numbered.flatMap (Visit.stored asked refusal)).map Prod.fst).Nodup :=
  numbered_files_once _ (stored_named asked refusal) (stored_once asked refusal) numbered increasing

end

section

variable (start done : Run) (visits : List Visit) (came : Run.Came start visits done)

include came

theorem texts_came (name : String) :
    done.sink.texts name =
      let files := (Run.told start.next visits).flatMap (Visit.stored start.options start.sink.refusal)
      if Sink.textsUnder name files = [] then start.sink.texts name else Sink.textsUnder name files := by
  rw [came.sink]
  exact Sink.texts_keep_all _ _ (all_stored_once _ _ _ (Run.told_increasing start.next visits)) name

theorem texts_of_stored (entry : Visit × Nat) (reported : entry ∈ Run.told start.next visits)
    (file : String × String) (member : file ∈ Visit.stored start.options start.sink.refusal entry) :
    done.sink.texts file.1 = [file.2] := by
  have once := all_stored_once start.options start.sink.refusal _ (Run.told_increasing start.next visits)
  have stored := Sink.texts_under_once _ once file (List.mem_flatMap_of_mem reported member)
  have after := texts_came start done visits came file.1
  simpa [stored] using after

theorem texts_of_absent (name : String) (absent : ∀ entry ∈ Run.told start.next visits,
    name ∉ (Visit.stored start.options start.sink.refusal entry).map Prod.fst) :
    done.sink.texts name = start.sink.texts name := by
  have nothing : Sink.textsUnder name
      ((Run.told start.next visits).flatMap (Visit.stored start.options start.sink.refusal)) = [] := by
    rw [Sink.texts_under_nil, List.map_flatMap]
    intro member
    obtain ⟨entry, listed, here⟩ := List.mem_flatMap.mp member
    exact absent entry listed here
  have after := texts_came start done visits came name
  simpa [nothing] using after

-- Under the names of a loop there is nothing new but its own files.
theorem texts_of_unstored (entry : Visit × Nat) (reported : entry ∈ Run.told start.next visits) (name : String)
    (named : NameOf entry.2 name)
    (absent : name ∉ (Visit.stored start.options start.sink.refusal entry).map Prod.fst) :
    done.sink.texts name = start.sink.texts name := by
  apply texts_of_absent start done visits came
  intro other listed here
  obtain ⟨file, stored, rfl⟩ := List.mem_map.mp here
  have sameNumber : other.2 = entry.2 := name_of_one _ _ file.1 (stored_named _ _ other file stored) named
  have numbers : ((Run.told start.next visits).map Prod.snd).Nodup :=
    (List.pairwise_map.mpr (Run.told_increasing start.next visits)).imp Nat.ne_of_lt
  exact absent (List.inj_on_of_nodup_map numbers listed reported sameNumber ▸ here)

theorem texts_of_unnamed (name : String)
    (unnamed : ∀ number, start.next ≤ number → number < start.next + visits.length → ¬NameOf number name) :
    done.sink.texts name = start.sink.texts name := by
  apply texts_of_absent start done visits came
  intro entry listed here
  obtain ⟨least, below, _⟩ := List.mem_zipIdx (List.mem_filter.mp listed).1
  obtain ⟨file, stored, rfl⟩ := List.mem_map.mp here
  exact unnamed entry.2 least below (stored_named _ _ entry file stored)

end

-- The drawing of a loop is asked for and accepted, its record is asked for and refused.
def Halfway (asked : Options) (refusal : String → Option String) (number : Nat) : Prop :=
  asked.dot = true ∧ asked.record = true ∧ refusal (dotFile number) = none ∧
    (refusal (recordFile number)).isSome = true

-- How far the output of a loop gets.
inductive Progressed (asked : Options) (refusal : String → Option String) (visit : Visit) (number : Nat) : Prop where
  | unbuilt (error : LoopError) (failed : visit.built number = .error error)
      (nothing : Visit.stored asked refusal (visit, number) = [])
      (told : Visit.outcome asked refusal (visit, number) = .ofError error)
  | complete (g : Graph) (built : visit.built number = .ok g)
      (all : Visit.stored asked refusal (visit, number) = asked.artifacts g)
      (told : Visit.outcome asked refusal (visit, number) = .ofGraph g)
  | halfway (g : Graph) (reason : String) (built : visit.built number = .ok g) (half : Halfway asked refusal number)
      (drawing : Visit.stored asked refusal (visit, number) = [(dotFile number, Dot.render g)])
      (told : Visit.outcome asked refusal (visit, number) = .ofError (.system reason))
  | refused (g : Graph) (reason : String) (built : visit.built number = .ok g) (whole : ¬Halfway asked refusal number)
      (nothing : Visit.stored asked refusal (visit, number) = [])
      (told : Visit.outcome asked refusal (visit, number) = .ofError (.system reason))

theorem loop_progressed (asked : Options) (refusal : String → Option String) (visit : Visit) (number : Nat) :
    Progressed asked refusal visit number := by
  cases built : visit.built number with
  | error error => exact .unbuilt error built (by simp [Visit.stored, built]) (by simp [Visit.outcome, built])
  | ok g =>
      have files : asked.artifacts g = (if asked.dot then [(dotFile number, Dot.render g)] else []) ++
          if asked.record then [(recordFile number, Record.render g)] else [] := by
        rw [Options.artifacts, built_number (visit.body number) visit.pdom g built]
        rfl
      cases drawn : asked.dot with
      | true =>
          cases first : refusal (dotFile number) with
          | some reason =>
              exact .refused g reason built (by simp [Halfway, first])
                (by simp [Visit.stored, built, files, drawn, Sink.accepts, first])
                (by simp [Visit.outcome, built, files, drawn, first])
          | none =>
              cases recorded : asked.record with
              | false =>
                  exact .complete g built (by simp [Visit.stored, built, files, drawn, recorded, Sink.accepts, first])
                    (by simp [Visit.outcome, built, files, drawn, recorded, first])
              | true =>
                  cases second : refusal (recordFile number) with
                  | some reason =>
                      exact .halfway g reason built (by simp [Halfway, drawn, recorded, first, second])
                        (by simp [Visit.stored, built, files, drawn, recorded, Sink.accepts, first, second])
                        (by simp [Visit.outcome, built, files, drawn, recorded, first, second])
                  | none =>
                      exact .complete g built
                        (by simp [Visit.stored, built, files, drawn, recorded, Sink.accepts, first, second])
                        (by simp [Visit.outcome, built, files, drawn, recorded, first, second])
      | false =>
          cases recorded : asked.record with
          | false =>
              exact .complete g built (by simp [Visit.stored, built, files, drawn, recorded])
                (by simp [Visit.outcome, built, files, drawn, recorded])
          | true =>
              cases second : refusal (recordFile number) with
              | some reason =>
                  exact .refused g reason built (by simp [Halfway, drawn])
                    (by simp [Visit.stored, built, files, drawn, recorded, Sink.accepts, second])
                    (by simp [Visit.outcome, built, files, drawn, recorded, second])
              | none =>
                  exact .complete g built (by simp [Visit.stored, built, files, drawn, recorded, Sink.accepts, second])
                    (by simp [Visit.outcome, built, files, drawn, recorded, second])

-- What a run leaves under the names of a loop that it reports.
structure Accounted (start done : Run) (report : Report) (built : Except LoopError Graph) : Prop where
  written : report.outcome.isWritten = true → ∃ g, built = .ok g ∧ g.loopId = report.loopId ∧
    ∀ file ∈ start.options.artifacts g, done.sink.texts file.1 = [file.2]
  failedRecord : report.outcome.isFailed = true →
    done.sink.texts (recordFile report.loopId) = start.sink.texts (recordFile report.loopId)
  failedDrawing : report.outcome.isFailed = true →
    (Halfway start.options start.sink.refusal report.loopId ∧
        ∃ g, built = .ok g ∧ done.sink.texts (dotFile report.loopId) = [Dot.render g]) ∨
      ((∃ error, built = .error error) ∨ ¬Halfway start.options start.sink.refusal report.loopId) ∧
        done.sink.texts (dotFile report.loopId) = start.sink.texts (dotFile report.loopId)
  skipped : report.outcome.isSkipped = true →
    done.sink.texts (dotFile report.loopId) = start.sink.texts (dotFile report.loopId) ∧
      done.sink.texts (recordFile report.loopId) = start.sink.texts (recordFile report.loopId)

theorem report_accounted (start done : Run) (visits : List Visit) (came : Run.Came start visits done) (visit : Visit)
    (number : Nat) (reported : (visit, number) ∈ Run.told start.next visits) :
    Accounted start done (Visit.report start.options start.sink.refusal (visit, number)) (visit.built number) := by
  have unstored := texts_of_unstored start done visits came (visit, number) reported
  have drawingName : NameOf number (dotFile number) := Or.inl rfl
  have recordName : NameOf number (recordFile number) := Or.inr rfl
  cases loop_progressed start.options start.sink.refusal visit number with
  | unbuilt error failed nothing told =>
      have drawing := unstored _ drawingName (by simp [nothing])
      have record := unstored _ recordName (by simp [nothing])
      refine ⟨?_, fun _ => record, fun _ => Or.inr ⟨Or.inl ⟨error, failed⟩, drawing⟩, fun _ => ⟨drawing, record⟩⟩
      intro written
      cases error <;> simp [Visit.report, told, Outcome.ofError, Outcome.isWritten] at written
  | complete g built all told =>
      refine ⟨fun _ => ⟨g, built, built_number (visit.body number) visit.pdom g built, ?_⟩, ?_, ?_, ?_⟩
      · intro file member
        exact texts_of_stored start done visits came _ reported file (all ▸ member)
      all_goals
        intro other
        simp [Visit.report, told, Outcome.ofGraph, Outcome.isFailed, Outcome.isSkipped] at other
  | halfway g reason built half drawing told =>
      have stored := texts_of_stored start done visits came _ reported (dotFile number, Dot.render g) (by simp [drawing])
      have record := unstored _ recordName (by simp [drawing, (dot_ne_record_file number number).symm])
      refine ⟨?_, fun _ => record, fun _ => Or.inl ⟨half, g, built, stored⟩, ?_⟩
      all_goals
        intro other
        simp [Visit.report, told, Outcome.ofError, Outcome.isWritten, Outcome.isSkipped] at other
  | refused g reason built whole nothing told =>
      have drawing := unstored _ drawingName (by simp [nothing])
      have record := unstored _ recordName (by simp [nothing])
      refine ⟨?_, fun _ => record, fun _ => Or.inr ⟨Or.inr whole, drawing⟩, fun _ => ⟨drawing, record⟩⟩
      intro other
      simp [Visit.report, told, Outcome.ofError, Outcome.isWritten] at other

-- A failed loop leaves no record, and a drawing only where its record was refused after it.
theorem failed_loops_leave_no_record (start : Run) (f : Func) (nest : LoopNest) (pdom : PostDominates) :
    ∃ fresh, (start.function f nest pdom).reports = start.reports ++ fresh ∧
      (fresh.map Report.loopId).Pairwise (· < ·) ∧
      ∀ report ∈ fresh, ∃ id, nest.isInnermost id = true ∧ (id, report.loopId) ∈ nest.numbered start.next ∧
        Accounted start (start.function f nest pdom) report
          (Graph.construct ⟨report.loopId, f, nest.blocksOf id⟩ pdom) := by
  have came := Run.come_all start (nest.order.map (Visit.mk f nest pdom))
  rw [← Run.function_comes] at came
  refine ⟨_, came.reports, ?_, ?_⟩
  · have increasing := Run.told_increasing start.next (nest.order.map (Visit.mk f nest pdom))
    rw [List.map_map]
    exact List.pairwise_map.mpr increasing
  · intro report member
    obtain ⟨⟨visit, number⟩, told, rfl⟩ := List.mem_map.mp member
    have accounted := report_accounted start _ _ came visit number told
    obtain ⟨listed, innermost⟩ := List.mem_filter.mp told
    rw [List.zipIdx_map, List.mem_map] at listed
    obtain ⟨⟨id, place⟩, numbered, same⟩ := listed
    cases same
    exact ⟨id, innermost, numbered, accounted⟩

-- The drawing is stored before the record is refused.
theorem drawing_outlives_refused_record :
    let f := (Func.branches [[1], [1]]).link
    let sink : Sink := ⟨[], fun name => if name = recordFile 0 then some "refused" else none⟩
    let done := (Run.new Options.default sink).analyzed f
    done.reports.map (fun report => (report.loopId, report.outcome)) = [(0, .failed "system error: refused")] ∧
      sink.texts (dotFile 0) = [] ∧ done.sink.texts (dotFile 0) ≠ [] := by
  decide

end LoopDeps
