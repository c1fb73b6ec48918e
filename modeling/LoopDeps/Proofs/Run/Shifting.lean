import LoopDeps.Proofs.Run.Refusing
set_option autoImplicit false

/- Loops do not influence one another. What a run makes of some functions is the same wherever they stand in the
   run, but for the numbers of their loops. -/
namespace LoopDeps

open LoopDeps.Flow

namespace Outcome

-- Outcomes of one kind, and of one size where a graph was written.
inductive Alike : Outcome → Outcome → Prop where
  | written (nodes edges backedges : Nat) : Alike (.written nodes edges backedges) (.written nodes edges backedges)
  | skipped (reason other : String) : Alike (.skipped reason) (.skipped other)
  | failed (reason other : String) : Alike (.failed reason) (.failed other)

theorem alike_of_error (error : LoopError) (number : Nat) : Alike (ofError (error.renumber number)) (ofError error) := by
  cases error with
  | emptyLoop _ => exact .skipped _ _
  | wideBranch _ _ _ => exact .failed _ _
  | missing _ _ => exact .failed _ _
  | system _ => exact .failed _ _

end Outcome

namespace Visit

def accepting (_ : String) : Option String := none

theorem stored_accepting (asked : Options) (visit : Visit) (number : Nat) :
    stored asked accepting (visit, number) = match visit.built number with
      | .ok g => asked.artifacts g
      | .error _ => [] := by
  unfold stored
  cases visit.built number with
  | error error => rfl
  | ok g => simp [Sink.accepts, accepting]

theorem outcome_accepting (asked : Options) (visit : Visit) (number : Nat) :
    outcome asked accepting (visit, number) = match visit.built number with
      | .ok g => .ofGraph g
      | .error error => .ofError error := by
  unfold outcome
  cases visit.built number with
  | error error => rfl
  | ok g =>
      have nothing : (asked.artifacts g).findSome? (fun file => accepting file.1) = none :=
        List.findSome?_eq_none_iff.mpr fun _ _ => rfl
      simp only [nothing]

theorem built_shifted (visit : Visit) (number shift : Nat) :
    visit.built (number + shift) = match visit.built number with
      | .ok g => .ok (g.relabel (number + shift, (visit.body number).coverage))
      | .error error => .error (error.renumber (number + shift)) :=
  Graph.construct_renumber (visit.body number) (number + shift) visit.pdom

end Visit

-- The same file of a loop in two runs, where its number in the first is higher by the shift.
def SameFile (shift : Nat) (name other : String) : Prop :=
  ∀ number, (dotFile (number + shift) = name ↔ dotFile number = other) ∧
    (recordFile (number + shift) = name ↔ recordFile number = other)

theorem same_drawing (shift number : Nat) : SameFile shift (dotFile (number + shift)) (dotFile number) := by
  intro other
  refine ⟨⟨fun same => ?_, fun same => ?_⟩, ?_⟩
  · rw [Nat.add_right_cancel (dot_file_injective _ _ same)]
  · rw [dot_file_injective _ _ same]
  · simp [(dot_ne_record_file _ _).symm]

theorem same_record (shift number : Nat) : SameFile shift (recordFile (number + shift)) (recordFile number) := by
  intro other
  refine ⟨?_, fun same => ?_, fun same => ?_⟩
  · simp [dot_ne_record_file]
  · rw [Nat.add_right_cancel (record_file_injective _ _ same)]
  · rw [record_file_injective _ _ same]

section

variable (asked : Options) (shift : Nat)

theorem artifacts_shifted (g : Graph) (name other : String) (same : SameFile shift name other) :
    Sink.textsUnder name (asked.artifacts (g.relabel (g.loopId + shift, g.coverage))) =
      Sink.textsUnder other (asked.artifacts g) := by
  obtain ⟨drawing, record⟩ := same g.loopId
  have number : (g.relabel (g.loopId + shift, g.coverage)).loopId = g.loopId + shift := rfl
  have drawn : Dot.render (g.relabel (g.loopId + shift, g.coverage)) = Dot.render g := rfl
  have rows : Record.render (g.relabel (g.loopId + shift, g.coverage)) = Record.render g := rfl
  have nothing : ∀ name, Sink.textsUnder name [] = [] := fun _ => rfl
  simp only [Options.artifacts, number, drawn, rows, Sink.texts_under_append]
  congr 1
  · cases asked.dot <;> simp [Sink.texts_under_single, drawing, nothing]
  · cases asked.record <;> simp [Sink.texts_under_single, record, nothing]

theorem stored_shifted (visit : Visit) (number : Nat) (name other : String) (same : SameFile shift name other) :
    Sink.textsUnder name (Visit.stored asked Visit.accepting (visit, number + shift)) =
      Sink.textsUnder other (Visit.stored asked Visit.accepting (visit, number)) := by
  rw [Visit.stored_accepting, Visit.stored_accepting, Visit.built_shifted]
  cases built : visit.built number with
  | error error => rfl
  | ok g =>
      have origin := Graph.construct_names (visit.body number) visit.pdom g built
      obtain ⟨loopId, coverage⟩ := Prod.mk.inj origin
      have shifted := artifacts_shifted asked shift g name other same
      rw [loopId, coverage] at shifted
      exact shifted

theorem told_shifted (visits : List Visit) :
    Run.told shift visits = (Run.told 0 visits).map (Prod.map id (· + shift)) := by
  have places : visits.zipIdx shift = visits.zipIdx.map (Prod.map id (· + shift)) :=
    (List.map_snd_add_zipIdx_eq_zipIdx (k := 0)).symm
  rw [Run.told, places, List.filter_map]
  rfl

theorem outcome_shifted (visit : Visit) (number : Nat) :
    (Visit.outcome asked Visit.accepting (visit, number + shift)).Alike
      (Visit.outcome asked Visit.accepting (visit, number)) := by
  rw [Visit.outcome_accepting, Visit.outcome_accepting, Visit.built_shifted]
  cases visit.built number with
  | error error => exact Outcome.alike_of_error error _
  | ok g => exact .written _ _ _

theorem all_stored_shifted (visits : List Visit) (name other : String) (same : SameFile shift name other) :
    Sink.textsUnder name ((Run.told shift visits).flatMap (Visit.stored asked Visit.accepting)) =
      Sink.textsUnder other ((Run.told 0 visits).flatMap (Visit.stored asked Visit.accepting)) := by
  rw [told_shifted]
  induction Run.told 0 visits with
  | nil => rfl
  | cons numbered rest ih =>
      rw [List.map_cons, List.flatMap_cons, List.flatMap_cons, Sink.texts_under_append, Sink.texts_under_append, ih]
      exact congrArg (· ++ _) (stored_shifted asked shift numbered.1 numbered.2 name other same)

end

namespace Visit

def ofFunc (f : Func) (loop : LoopId) : Visit := ⟨f, LoopNest.ofFunc f, (postDominance f).dominates, loop⟩

end Visit

def visits (fs : List Func) : List Visit := fs.flatMap fun f => (LoopNest.ofFunc f).order.map (Visit.ofFunc f)

def loopCount (fs : List Func) : Nat := (fs.map fun f => (LoopForest.ofFunc f).loops.length).sum

theorem functions_come (fs : List Func) (run : Run) : run.functions fs = (visits fs).foldl Run.come run := by
  induction fs generalizing run with
  | nil => rfl
  | cons f rest ih =>
      have here := Run.function_comes run f (LoopNest.ofFunc f) (postDominance f).dominates
      rw [visits, List.flatMap_cons, List.foldl_append]
      exact (ih (run.analyzed f)).trans (congrArg (List.foldl Run.come · (visits rest)) here)

theorem functions_append (run : Run) (fs more : List Func) :
    run.functions (fs ++ more) = (run.functions fs).functions more := List.foldl_append

theorem visits_length (fs : List Func) (linked : ∀ f ∈ fs, f.Linked) : (visits fs).length = loopCount fs := by
  have each : ∀ f ∈ fs, (LoopNest.ofFunc f).order.length = (LoopForest.ofFunc f).loops.length := by
    intro f member
    obtain ⟨complete, sorted⟩ := order_of_linked fs linked f member
    have once : (LoopNest.ofFunc f).order.Nodup := sorted.imp fun apart => apart.1.symm
    have all : (LoopNest.ofFunc f).order.Perm (List.range (LoopForest.ofFunc f).loops.length) := by
      rw [List.perm_ext_iff_of_nodup once List.nodup_range]
      intro id
      rw [complete, List.mem_range]
    rw [all.length_eq, List.length_range]
  simp only [visits, loopCount, List.length_flatMap, List.length_map]
  rw [List.map_congr_left each]

-- A report of a loop, and the report of the same loop under a number that is lower by the shift.
structure ReportedAlike (shift : Nat) (report original : Report) : Prop where
  number : report.loopId = original.loopId + shift
  func : report.func = original.func
  outcome : report.outcome.Alike original.outcome

-- A run over some functions and then over others, beside a run over the first and a run over the others alone.
structure Unaffected (files : List (String × String)) (shift : Nat) (first together alone : Run) : Prop where
  reports : ∃ later, together.reports = first.reports ++ later ∧
    List.Forall₂ (ReportedAlike shift) later alone.reports
  drawings : ∀ number, together.sink.texts (dotFile (number + shift)) =
    if alone.sink.texts (dotFile number) = [] then Sink.textsUnder (dotFile (number + shift)) files
    else alone.sink.texts (dotFile number)
  records : ∀ number, together.sink.texts (recordFile (number + shift)) =
    if alone.sink.texts (recordFile number) = [] then Sink.textsUnder (recordFile (number + shift)) files
    else alone.sink.texts (recordFile number)
  -- Nor do the later functions change what the earlier ones wrote.
  others : ∀ name, (∀ number, ¬NameOf (number + shift) name) → together.sink.texts name = first.sink.texts name

section

variable (asked : Options) (first together alone : Run) (rest : List Visit) (options : first.options = asked)
  (refusal : first.sink.refusal = Visit.accepting) (goesOn : Run.Came first rest together)
  (apart : Run.Came (Run.new asked (Sink.memory [])) rest alone)

include options refusal goesOn apart

theorem reports_go_on : ∃ later, together.reports = first.reports ++ later ∧
    List.Forall₂ (ReportedAlike first.next) later alone.reports := by
  refine ⟨_, goesOn.reports, ?_⟩
  have shifted := told_shifted first.next rest
  rw [apart.reports, shifted, options, refusal]
  show List.Forall₂ _ _ ((Run.told 0 rest).map (Visit.report asked Visit.accepting))
  rw [List.map_map, List.forall₂_map_left_iff, List.forall₂_map_right_iff, List.forall₂_same]
  intro numbered _
  exact ⟨rfl, rfl, outcome_shifted asked first.next numbered.1 numbered.2⟩

theorem texts_go_on (name other : String) (same : SameFile first.next name other) :
    together.sink.texts name = if alone.sink.texts other = [] then first.sink.texts name else alone.sink.texts other := by
  have shifted := all_stored_shifted asked first.next rest name other same
  have beside : alone.sink.texts other =
      Sink.textsUnder other ((Run.told 0 rest).flatMap (Visit.stored asked Visit.accepting)) := by
    have stored := texts_came _ alone rest apart other
    dsimp only [Run.new, Sink.memory] at stored
    by_cases nothing : Sink.textsUnder other ((Run.told 0 rest).flatMap (Visit.stored asked Visit.accepting)) = []
    · rw [nothing]
      exact stored.trans (if_pos nothing)
    · exact stored.trans (if_neg nothing)
  rw [beside, ← shifted, ← options, ← refusal]
  exact texts_came first together rest goesOn name

end

theorem loops_independent (asked : Options) (files : List (String × String)) (earlier later : List Func)
    (linked : ∀ f ∈ earlier ++ later, f.Linked) :
    Unaffected files (loopCount earlier) ((Run.new asked (Sink.memory files)).functions earlier)
      ((Run.new asked (Sink.memory files)).functions (earlier ++ later))
      ((Run.new asked (Sink.memory [])).functions later) := by
  have before := Run.come_all (Run.new asked (Sink.memory files)) (visits earlier)
  rw [← functions_come] at before
  have goesOn := Run.come_all ((Run.new asked (Sink.memory files)).functions earlier) (visits later)
  rw [← functions_come, ← functions_append] at goesOn
  have apart := Run.come_all (Run.new asked (Sink.memory [])) (visits later)
  rw [← functions_come] at apart
  have count : ((Run.new asked (Sink.memory files)).functions earlier).next = loopCount earlier := by
    have length := visits_length earlier fun f member => linked f (List.mem_append_left _ member)
    rw [before.next, length]
    exact Nat.zero_add _
  have refusal : ((Run.new asked (Sink.memory files)).functions earlier).sink.refusal = Visit.accepting := by
    rw [before.sink, Sink.keep_all_refusal]
    rfl
  have untouched : ∀ name number, NameOf (number + loopCount earlier) name →
      ((Run.new asked (Sink.memory files)).functions earlier).sink.texts name = Sink.textsUnder name files := by
    intro name number named
    apply texts_of_unnamed _ _ _ before
    intro other _ below otherName
    have same := name_of_one _ _ name named otherName
    rw [visits_length earlier fun f member => linked f (List.mem_append_left _ member)] at below
    have below : other < 0 + loopCount earlier := below
    omega
  have texts := texts_go_on asked _ _ _ _ before.options refusal goesOn apart
  rw [count] at texts
  exact
    { reports := count ▸ reports_go_on asked _ _ _ _ before.options refusal goesOn apart
      drawings := by
        intro number
        rw [texts _ _ (same_drawing _ number), untouched _ number (Or.inl rfl)]
      records := by
        intro number
        rw [texts _ _ (same_record _ number), untouched _ number (Or.inr rfl)]
      others := by
        intro name unnamed
        apply texts_of_unnamed _ _ _ goesOn
        intro number least _ named
        rw [count] at least
        exact unnamed (number - loopCount earlier) (by rwa [Nat.sub_add_cancel least]) }

-- A loop that branches three ways and fails, in front of a loop inside a loop.
theorem independent_of_failure :
    let earlier := [(Func.branches [[1], [1, 1, 2], []]).link]
    let later := [Func.twoLoops]
    let start := Run.new Options.default (Sink.memory [])
    (∀ f ∈ earlier ++ later, f.Linked) ∧
      (start.functions earlier).reports.map (fun report => report.outcome.isFailed) = [true] ∧
      (start.functions later).reports.map (fun report => report.outcome.isWritten) = [true] ∧ loopCount earlier = 1 ∧
      Unaffected [] (loopCount earlier) (start.functions earlier) (start.functions (earlier ++ later))
        (start.functions later) := by
  have linked : ∀ f ∈ [(Func.branches [[1], [1, 1, 2], []]).link] ++ [Func.twoLoops], f.Linked := by
    intro f member
    rcases List.mem_cons.mp member with rfl | last
    · exact Func.linked_link _ (by decide)
    · rw [List.mem_singleton.mp last]
      exact Func.two_loops_linked
  exact ⟨linked, by decide, by decide, by decide, loops_independent Options.default [] _ _ linked⟩

end LoopDeps
