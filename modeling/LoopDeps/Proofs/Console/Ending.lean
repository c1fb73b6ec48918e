import LoopDeps.Console.FileSystem
import LoopDeps.Proofs.Console.Printing
import LoopDeps.Proofs.Run.Numbering
import LoopDeps.Proofs.Text.Faithful
set_option autoImplicit false

/- How a session ends once its input is read and its directory is there. Nothing that becomes of a loop, and no
   file that is refused, ends it early: every innermost loop is reported, counted and, where it failed, told of. -/
namespace LoopDeps

open LoopDeps.Flow

-- Anything that answers a session. The names that a directory refuses may be any.
structure World (σ : Type) where
  read : String → σ → Except String String
  makeDirectory : String → σ → Except String (String → Option String) × σ

namespace Session

def runWith {σ : Type} (w : World σ) (s : σ) : Session → Transcript × σ
  | .done transcript => (transcript, s)
  | .read path next => (next (w.read path s)).runWith w s
  | .makeDirectory path next => (next (w.makeDirectory path s).1).runWith w (w.makeDirectory path s).2

section

variable {σ : Type} (w : World σ) (s : σ)

theorem run_done (transcript : Transcript) : (done transcript).runWith w s = (transcript, s) := rfl

theorem run_read (path : String) (next : Except String String → Session) :
    (read path next).runWith w s = (next (w.read path s)).runWith w s := rfl

theorem run_make_directory (path : String) (next : Except String (String → Option String) → Session) :
    (makeDirectory path next).runWith w s =
      (next (w.makeDirectory path s).1).runWith w (w.makeDirectory path s).2 := rfl

end

end Session

def FileSystem.world : World FileSystem where
  read path s := reasonOf (s.read path)
  makeDirectory path s := (reasonOf ((s.makeAll path).1.map fun _ => (s.makeAll path).2.refusal path), (s.makeAll path).2)

theorem FileSystem.world_makes (s : FileSystem) (path : String) (made : (s.makeAll path).1 = .ok ()) :
    world.makeDirectory path s = (.ok ((s.makeAll path).2.refusal path), (s.makeAll path).2) := by
  show (reasonOf ((s.makeAll path).1.map fun _ => (s.makeAll path).2.refusal path), (s.makeAll path).2) = _
  rw [made]
  rfl

namespace FileSystem

section

variable (s : FileSystem) (error : SystemError)

theorem step_one_line (place : Place) (segment : String) (failed : place.step segment = .error error) :
    OneLine error.text := by
  unfold Place.step at failed
  split at failed
  · cases failed
    decide
  · split at failed
    · cases failed
    · split at failed
      · cases failed
      · unfold Place.enter at failed
        split at failed
        · cases failed
          decide
        · split at failed
          · cases failed
          · cases failed
            decide

theorem steps_one_line (segments : Segments) (place : Place) (failed : segments.foldlM Place.step place = .error error) :
    OneLine error.text := by
  induction segments generalizing place with
  | nil => cases failed
  | cons segment rest ih =>
      rw [List.foldlM_cons] at failed
      cases stepped : place.step segment with
      | error first =>
          rw [stepped] at failed
          cases failed
          exact step_one_line error place segment stepped
      | ok next =>
          rw [stepped] at failed
          exact ih next failed

theorem walk_one_line (path : String) (segments : Segments) (failed : s.walk path segments = .error error) :
    OneLine error.text := by
  unfold walk at failed
  cases start : s.origin path with
  | ok place =>
      rw [start] at failed
      exact steps_one_line error segments place failed
  | error first =>
      rw [start] at failed
      cases failed
      unfold origin at start
      dsimp only at start
      split at start
      · cases start
      · exact steps_one_line error s.home _ start

theorem write_one_line (path text : String) (failed : s.write path text = .error error) : OneLine error.text := by
  unfold write at failed
  split at failed
  · cases failed
    decide
  · split at failed
    · cases failed
      decide
    · split at failed
      · cases failed
        decide
      · rename_i name above _
        cases walked : s.walk path above.reverse with
        | error first =>
            rw [walked] at failed
            cases failed
            exact walk_one_line s error path _ walked
        | ok place =>
            rw [walked] at failed
            dsimp only [bind, Except.bind] at failed
            split at failed
            · cases failed
              decide
            · cases failed
            · cases failed
            · rename_i stepped
              cases failed
              exact step_one_line error place name stepped

end

-- No reason that a file system has for refusing a file breaks a line.
theorem refusal_one_line (s : FileSystem) (directory : String) : Sink.OneLined (s.refusal directory) := by
  intro name reason refused
  unfold refusal at refused
  split at refused
  · cases refused
  · rename_i error failed
    cases refused
    exact write_one_line s error _ _ failed

end FileSystem

namespace Session

-- A session in a file system is one with the world it makes.
theorem run_in_world (session : Session) (s : FileSystem) :
    (session.runIn s).1 = (session.runWith FileSystem.world s).1 := by
  induction session generalizing s with
  | done transcript => rfl
  | read path next ih => exact ih _ s
  | makeDirectory path next ih => exact ih _ _

end Session

namespace Settings

def wanted (settings : Settings) (functions : List Func) : List Func :=
  functions.filter fun f => settings.wants f.name

theorem all_wanted {good : Func → Prop} (settings : Settings) (functions : List Func) (all : ∀ f ∈ functions, good f) :
    ∀ f ∈ settings.wanted functions, good f := fun f member => all f (List.mem_filter.mp member).1

-- The function asked for, where the module has none of that name.
def unknown (settings : Settings) (functions : List Func) : Option String :=
  settings.function.filter fun name => functions.all fun f => f.name != name

def runOver (settings : Settings) (functions : List Func) (refusal : String → Option String) : Run :=
  (Run.new (Session.options settings) ⟨[], refusal⟩).functions (settings.wanted functions)

end Settings

def Report.complaint (report : Report) : Option String :=
  match report.outcome with
  | .failed reason => some ("warning: " ++ reason)
  | _ => none

namespace Settings

-- What is complained of: the function that is not there, and one reason for each loop that failed.
def complaints (settings : Settings) (functions : List Func) (run : Run) : List String :=
  ((settings.unknown functions).toList.map fun name => "warning: no function named '@" ++ name ++ "' in " ++ settings.input) ++
    run.reports.filterMap Report.complaint

-- Nothing that is told of from outside of the module has a line feed.
structure Unbroken (settings : Settings) (verbose : Nat) (functions : List Func) (refusal : String → Option String) :
    Prop where
  log : Message.Unbroken verbose settings.output refusal
  complaint : ∀ name, settings.unknown functions = some name → OneLine name ∧ OneLine settings.input

end Settings

structure Transcript.EndsWell (settings : Settings) (verbose : Nat) (functions : List Func) (run : Run)
    (t : Transcript) : Prop where
  exit : t.exit = 0
  lastLine : ∃ before, Output.lines? t.output.toList = some (before ++
    [(toString run.summary.loops ++ " loops: " ++ toString run.summary.written ++ " written, " ++
      toString run.summary.failed ++ " failed, " ++ toString run.summary.skipped ++ " skipped").toList])
  tallied : run.summary.written = (run.reports.countP fun report => report.outcome.isWritten) ∧
    run.summary.failed = (run.reports.countP fun report => report.outcome.isFailed) ∧
    run.summary.skipped = run.reports.countP fun report => report.outcome.isSkipped
  adds : run.summary.loops = run.summary.written + run.summary.failed + run.summary.skipped
  counted : run.summary.loops =
    ((settings.wanted functions).flatMap fun f => innermostLoops (LoopForest.ofFunc f)).length
  inOrder : (run.reports.map Report.loopId).Pairwise (· < ·)
  -- Every message is written as it is, and has lines of its own.
  errors : (Message.render verbose t.messages).toList =
    Output.closed '\n' ((Message.shown verbose t.messages).map String.toList)
  complaints : (Message.shown verbose t.messages).filter (fun message => Message.complains message.toList) =
    settings.complaints functions run
  failures : (run.reports.filterMap Report.complaint).length = run.summary.failed
  errorLines : settings.Unbroken verbose functions run.sink.refusal →
    ∃ lines, Output.lines? (Message.render verbose t.messages).toList = some lines ∧
      lines.filter Message.complains = (settings.complaints functions run).map String.toList

theorem complaints_counted (reports : List Report) :
    (reports.filterMap Report.complaint).length = (Summary.ofReports reports).failed := by
  show _ = reports.countP fun report => report.outcome.isFailed
  induction reports with
  | nil => rfl
  | cons report rest ih =>
      rw [List.filterMap_cons, List.countP_cons, ← ih, Report.complaint]
      cases report.outcome <;> rfl

namespace Session

open Output

-- The lines of a report on standard output.
def listed (report : Report) : List Text := report.listing.elim [] fun text => Reindent.printed text listingIndent

theorem report_output_closed (report : Report) : (reportOutput report).toList = closed '\n' (listed report) := by
  unfold reportOutput listed
  cases report.listing with
  | none => rfl
  | some text => exact Reindent.reindent_closed text listingIndent

theorem listed_free (report : Report) : ∀ l ∈ listed report, '\n' ∉ l := by
  unfold listed
  cases report.listing with
  | none => exact fun _ member => (List.not_mem_nil member).elim
  | some text => exact Reindent.printed_free text listingIndent

theorem output_lines (reports : List Report) (s : Summary) :
    lines? (String.join (reports.map reportOutput) ++ s.text ++ "\n").toList =
      some (reports.flatMap listed ++ [s.text.toList]) := by
  have output : (String.join (reports.map reportOutput) ++ s.text ++ "\n").toList =
      closed '\n' (reports.flatMap listed ++ [s.text.toList]) := by
    have each : ∀ report ∈ reports, (reportOutput report).toList = closed '\n' (listed report) :=
      fun report _ => report_output_closed report
    rw [String.toList_append, String.toList_append, String.toList_join, List.flatMap_map, List.flatMap_congr each, closed,
      List.flatMap_append, List.flatMap_assoc]
    simp [closed]
  rw [output]
  refine lines_closed _ fun l member => ?_
  rcases List.mem_append.mp member with listing | last
  · obtain ⟨report, _, inside⟩ := List.mem_flatMap.mp listing
    exact listed_free report l inside
  · rw [List.mem_singleton.mp last]
    exact summary_one_line s

theorem filter_messages_eq (settings : Settings) (functions : List Func) :
    filterMessages settings functions = (settings.unknown functions).toList.map fun name =>
      .warning ("no function named '@" ++ name ++ "' in " ++ settings.input) := by
  unfold filterMessages Settings.unknown
  cases settings.function with
  | none => rfl
  | some name =>
      have same : (functions.any fun f => f.name == name) = !functions.all fun f => f.name != name := by
        rw [List.not_all_eq_any_not]
        exact congrArg functions.any (funext fun f => (Bool.not_not _).symm)
      dsimp only
      rw [same, Option.filter_some]
      cases functions.all fun f => f.name != name <;> rfl

theorem filter_complaints (settings : Settings) (functions : List Func) :
    ((filterMessages settings functions).filter Message.isWarning).map Message.text =
      (settings.unknown functions).toList.map fun name =>
        "warning: no function named '@" ++ name ++ "' in " ++ settings.input := by
  rw [filter_messages_eq]
  cases settings.unknown functions with
  | none => rfl
  | some name =>
      show [Message.text (.warning ("no function named '@" ++ name ++ "' in " ++ settings.input))] = _
      rw [Message.text, ← String.append_assoc, ← String.append_assoc, ← String.append_assoc]
      rfl

theorem report_complaints (reports : List Report) :
    ((reports.flatMap reportMessages).filter Message.isWarning).map Message.text =
      reports.filterMap Report.complaint := by
  induction reports with
  | nil => rfl
  | cons report rest ih =>
      rw [List.flatMap_cons, List.filter_append, List.map_append, ih, List.filterMap_cons, reportMessages, Report.complaint]
      cases report.outcome <;> rfl

theorem report_messages_one_line (report : Report) (plain : report.OneLined) :
    ∀ m ∈ reportMessages report, OneLine m.text := by
  have outcome := plain.outcome
  unfold reportMessages
  cases here : report.outcome with
  | written nodes edges backedges => exact fun _ member => (List.not_mem_nil member).elim
  | skipped reason =>
      rw [here] at outcome
      rw [List.forall_mem_singleton]
      exact Message.log_one_line .debug _ ((one_line_append _ _).mpr ⟨by decide, outcome⟩)
  | failed reason =>
      rw [here] at outcome
      rw [List.forall_mem_singleton]
      exact (one_line_append _ _).mpr ⟨by decide, outcome⟩

section

variable (settings : Settings) (verbose : Nat) (functions : List Func) (linked : ∀ f ∈ functions, f.Linked)
  (plain : ∀ f ∈ functions, f.Sound ∧ f.OneLined) (refusal : String → Option String) (before : List Message)
  (logged : Message.Logged verbose settings.output refusal before)

-- What is told, from the start to the last report.
def toldOver : List Message :=
  before ++ filterMessages settings functions ++
    Narrative.runLines settings.output (Run.new (options settings) ⟨[], refusal⟩) (settings.wanted functions) ++
    (settings.runOver functions refusal).reports.flatMap reportMessages

include plain logged

theorem told_complaints : ((toldOver settings functions refusal before).filter Message.isWarning).map Message.text =
    settings.complaints functions (settings.runOver functions refusal) := by
  have plainWanted := settings.all_wanted functions plain
  have narrated : Message.Logged verbose settings.output refusal _ :=
    Narrative.run_logged (Run.new (options settings) ⟨[], refusal⟩) rfl (settings.wanted functions) plainWanted
  rw [toldOver, List.filter_append, List.filter_append, List.filter_append, Message.logged_quiet before logged,
    Message.logged_quiet _ narrated, List.nil_append, List.append_nil, List.map_append, filter_complaints,
    report_complaints]
  rfl

theorem told_one_line (unbroken : settings.Unbroken verbose functions refusal) :
    ∀ m ∈ toldOver settings functions refusal before, m.isShown verbose = true → OneLine m.text := by
  have plainWanted := settings.all_wanted functions plain
  intro m member shown
  rcases List.mem_append.mp member with earlier | reported
  · rcases List.mem_append.mp earlier with first | narrated
    · rcases List.mem_append.mp first with start | filtered
      · exact (logged m start).oneLine unbroken.log shown
      · rw [filter_messages_eq] at filtered
        obtain ⟨name, unknown, rfl⟩ := List.mem_map.mp filtered
        obtain ⟨asked, input⟩ := unbroken.complaint name (Option.mem_toList.mp unknown)
        simp +decide [Message.text, asked, input]
    · exact (Narrative.run_logged _ rfl _ plainWanted m narrated).oneLine unbroken.log shown
  · obtain ⟨report, listed, here⟩ := List.mem_flatMap.mp reported
    obtain ⟨fresh, same, each⟩ := (Run.new (options settings) ⟨[], refusal⟩).functions_one_lined _ plainWanted
      unbroken.log.reasons
    have all : (settings.runOver functions refusal).reports = fresh := same
    exact report_messages_one_line report (each report (all ▸ listed)) m here

include linked

theorem graphs_end :
    ∃ t, graphs settings functions (before ++ filterMessages settings functions) refusal = .done t ∧
      t.EndsWell settings verbose functions (settings.runOver functions refusal) := by
  have complaints := told_complaints settings verbose functions plain refusal before logged
  have kept : (settings.runOver functions refusal).sink.refusal = refusal :=
    (Run.new (options settings) ⟨[], refusal⟩).functions_refusal _
  refine ⟨_, rfl, ?_⟩
  exact
    { exit := rfl
      lastLine := ⟨_, output_lines _ _⟩
      tallied := ⟨rfl, rfl, rfl⟩
      adds := totals_add _
      counted := reports_counted (options settings) ⟨[], refusal⟩ _ (settings.all_wanted functions linked)
      inOrder := report_ids_increasing (options settings) ⟨[], refusal⟩ _
      errors := Message.render_closed verbose _
      complaints := (Message.complaints_shown verbose _).trans complaints
      failures := complaints_counted _
      errorLines := by
        intro unbroken
        rw [← complaints]
        exact Message.complaints_lined verbose _
          (told_one_line settings verbose functions plain refusal before logged (kept ▸ unbroken)) }

end

section

variable {σ : Type} (w : World σ) (s after : σ) (settings : Settings)

theorem functions_end (verbose : Nat) (functions : List Func) (linked : ∀ f ∈ functions, f.Linked)
    (plain : ∀ f ∈ functions, f.Sound ∧ f.OneLined) (refusal : String → Option String) (before : List Message)
    (logged : Message.Logged verbose settings.output refusal before) (noDump : settings.dumpIr = false)
    (directory : w.makeDirectory settings.output s = (.ok refusal, after)) :
    ((onFunctions settings before functions).runWith w s).1.EndsWell settings verbose functions
      (settings.runOver functions refusal) := by
  obtain ⟨t, ended, well⟩ := graphs_end settings verbose functions linked plain refusal before logged
  rw [onFunctions, noDump, if_neg Bool.false_ne_true, run_make_directory, directory]
  dsimp only
  rwa [ended, run_done]

theorem text_end (verbose : Nat) (text : String) (functions : List Func) (parses : parse text = .ok functions)
    (refusal : String → Option String) (before : List Message)
    (logged : Message.Logged verbose settings.output refusal before) (noDump : settings.dumpIr = false)
    (directory : w.makeDirectory settings.output s = (.ok refusal, after)) :
    ((onText settings before text).runWith w s).1.EndsWell settings verbose functions
      (settings.runOver functions refusal) := by
  have resolved : Text.resolveText text = ⟨functions, none⟩ := by
    unfold parse at parses
    split at parses
    · cases parses
      assumption
    · cases parses
  have plain := parsed_one_lined text functions parses
  unfold onText
  rw [resolved]
  refine functions_end w s after settings verbose functions (parsed_linked text functions parses) plain refusal _ ?_
    noDump directory
  exact Message.logged_append _ _ logged
    (Message.logged_map _ _ fun f member => Narrative.parsed_told f (plain f member).2)

end

end Session

-- Whatever the world holds and refuses.
theorem session_ends_well {σ : Type} (w : World σ) (s after : σ) (texts : List String) (given : Arguments)
    (settings : Settings) (text : String) (functions : List Func) (refusal : String → Option String)
    (accepted : Arguments.parse texts = .ok given) (input : Settings.ofArguments? given = some settings)
    (noDump : settings.dumpIr = false) (readable : w.read settings.input s = .ok text)
    (parses : parse text = .ok functions) (directory : w.makeDirectory settings.output s = (.ok refusal, after)) :
    ∃ t, (Arguments.parse texts).map (fun given => ((Session.start given).runWith w s).1) = .ok t ∧
      t.EndsWell settings given.verbose functions (settings.runOver functions refusal) := by
  have started : Message.Logged given.verbose settings.output refusal [Message.trace "start"] :=
    Message.logged_cons _ _ (Message.told_of_one_line .trace _ (by decide)) Message.logged_nil
  have well := Session.text_end w s after settings given.verbose text functions parses refusal _ started noDump directory
  refine ⟨((Session.start given).runWith w s).1, congrArg (Except.map _) accepted, ?_⟩
  unfold Session.start
  rw [input]
  dsimp only
  rw [Session.run_read, readable]
  exact well

-- A directory stands where the record of the only loop is to be.
def blockedText : String := "func @f() \x7b\na:\n  br label %a\n\x7d"

def blocked : FileSystem := .ofFiles [("m", blockedText), ("d/0.loop_analysis_graph.graph/taken", "")]

def blockedArguments : Arguments := { Arguments.none with output := some "d", input := some "m" }

def blockedSettings : Settings := ⟨"m", "d", true, true, none, false, false⟩

def blockedRefusal : String → Option String := (blocked.makeAll "d").2.refusal "d"

def blockedComplaints : List String := ["warning: system error: Is a directory (os error 21)"]

def blockedCheck : Bool :=
  match parse blockedText with
  | .ok functions =>
      decide ((blockedSettings.runOver functions blockedRefusal).reports.filterMap Report.complaint = blockedComplaints)
  | .error _ => false

theorem blocked_ends_well :
    Arguments.parse ["m", "-o", "d"] = .ok blockedArguments ∧
      Settings.ofArguments? blockedArguments = some blockedSettings ∧
      ∃ functions, parse blockedText = .ok functions ∧
        ((Session.start blockedArguments).runIn blocked).1.EndsWell blockedSettings 0 functions
          (blockedSettings.runOver functions blockedRefusal) ∧
        (blockedSettings.runOver functions blockedRefusal).reports.filterMap Report.complaint = blockedComplaints ∧
        ∃ lines, Output.lines? (Message.render 0
            ((Session.start blockedArguments).runIn blocked).1.messages).toList = some lines ∧
          lines.filter Message.complains = blockedComplaints.map String.toList := by
  have accepted : Arguments.parse ["m", "-o", "d"] = .ok blockedArguments := by decide +kernel
  have readable : FileSystem.world.read "m" blocked = .ok blockedText := by decide +kernel
  have made : (blocked.makeAll "d").1 = .ok () := by decide +kernel
  have check : blockedCheck = true := by decide +kernel
  unfold blockedCheck at check
  split at check
  · rename_i functions parses
    have complaints := of_decide_eq_true check
    obtain ⟨t, ran, well⟩ := session_ends_well FileSystem.world blocked _ ["m", "-o", "d"] blockedArguments
      blockedSettings blockedText functions blockedRefusal accepted rfl rfl readable parses
      (blocked.world_makes "d" made)
    rw [accepted] at ran
    cases ran
    rw [Session.run_in_world]
    have kept : (blockedSettings.runOver functions blockedRefusal).sink.refusal = blockedRefusal :=
      (Run.new (Session.options blockedSettings) ⟨[], blockedRefusal⟩).functions_refusal _
    have reasons : Sink.OneLined (blockedSettings.runOver functions blockedRefusal).sink.refusal := by
      rw [kept]
      exact (blocked.makeAll "d").2.refusal_one_line "d"
    obtain ⟨lines, split, warnings⟩ := well.errorLines ⟨⟨reasons, nofun⟩, nofun⟩
    exact ⟨accepted, rfl, functions, parses, well, complaints, lines, split, warnings.trans (by rw [← complaints]; rfl)⟩
  · cases check

-- A function is asked for by a name with a line feed, and no loop fails.
def askedArguments : Arguments :=
  { Arguments.none with output := some "out", function := some "x\nwarning: y", input := some "m" }

theorem line_feed_breaks_complaint :
    Arguments.parse ["m", "--function", "x\nwarning: y", "-o", "out"] = .ok askedArguments ∧
      let t := ((Session.start askedArguments).runIn (.ofFiles [("m", blockedText)])).1
      t.exit = 0 ∧ t.output = "0 loops: 0 written, 0 failed, 0 skipped\n" ∧
        Output.lines? (Message.render askedArguments.verbose t.messages).toList =
          some ["warning: no function named '@x".toList, "warning: y' in m".toList] := by
  decide +kernel

end LoopDeps
