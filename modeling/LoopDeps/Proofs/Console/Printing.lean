import LoopDeps.Console.Session
import LoopDeps.Proofs.Console.Lining
set_option autoImplicit false

/- What is printed, line by line. Everything ends its last line, so what is printed next starts on one of its
   own. The log tells a lot, but none of its lines is a complaint, and every message is one line where nothing
   from outside breaks it. -/
namespace LoopDeps

open Output

namespace Reindent

theorem ended_line_free (start : List Char) (free : '\n' ∉ start) : '\n' ∉ endedLine start := by
  unfold endedLine
  split
  · rw [List.mem_reverse]
    exact fun member => free (List.mem_cons_of_mem _ member)
  · rwa [List.mem_reverse]

theorem lines_from_free (text start : List Char) (free : '\n' ∉ start) : ∀ l ∈ linesFrom start text, '\n' ∉ l := by
  induction text generalizing start with
  | nil =>
      intro l member
      unfold linesFrom at member
      split at member
      · cases member
      · rw [List.mem_singleton.mp member, List.mem_reverse]
        exact free
  | cons c rest ih =>
      intro l member
      unfold linesFrom at member
      split at member
      · rcases List.mem_cons.mp member with rfl | later
        · exact ended_line_free start free
        · exact ih [] List.not_mem_nil l later
      · rename_i other
        refine ih (c :: start) (fun inside => ?_) l member
        rcases List.mem_cons.mp inside with rfl | before
        · exact other rfl
        · exact free before

theorem line_free (c : Char) (other : c ≠ ' ') (columns : Nat) (text : List Char) (free : c ∉ text) :
    c ∉ line columns text := by
  intro member
  rcases List.mem_append.mp member with indent | rest
  · exact other (List.mem_replicate.mp indent).2
  · exact free ((List.dropWhile_sublist _).mem rest)

def printed (text : String) (columns : Nat) : List Text := (lines text.toList).map (line columns)

theorem reindent_closed (text : String) (columns : Nat) :
    (reindent text columns).toList = closed '\n' (printed text columns) := by
  rw [reindent, String.toList_ofList, closed, printed, List.flatMap_map]

theorem printed_free (text : String) (columns : Nat) : ∀ l ∈ printed text columns, '\n' ∉ l := by
  intro l member
  obtain ⟨old, listed, rfl⟩ := List.mem_map.mp member
  exact line_free '\n' (by decide) columns old (lines_from_free text.toList [] List.not_mem_nil old listed)

end Reindent

theorem summary_one_line (s : Summary) : OneLine s.text := by
  simp +decide [Summary.text]

namespace Message

def isLog : Message → Bool
  | .log .. => true
  | _ => false

def isWarning : Message → Bool
  | .warning _ => true
  | _ => false

-- What is shown, message by message.
def shown (verbose : Nat) (messages : List Message) : List String :=
  (messages.filter (isShown verbose)).map text

def complains (line : Text) : Bool := "warning:".toList.isPrefixOf line

theorem complains_text (m : Message) : complains m.text.toList = m.isWarning := by
  cases m with
  | log level told => cases level <;> simp [complains, text, Level.tag, isWarning, List.isPrefixOf]
  | warning told => simp [complains, text, isWarning, List.isPrefixOf]
  | fatal told => simp [complains, text, isWarning, List.isPrefixOf]
  | failure told => simp [complains, text, isWarning, List.isPrefixOf]

theorem shown_of_warning (verbose : Nat) (m : Message) (warns : m.isWarning = true) : m.isShown verbose = true := by
  cases m with
  | warning told => rfl
  | log level told => cases warns
  | fatal told => cases warns
  | failure told => cases warns

-- No verbosity hides a warning.
theorem complaints_shown (verbose : Nat) (messages : List Message) :
    (shown verbose messages).filter (fun line => complains line.toList) = (messages.filter isWarning).map text := by
  have same : (fun line => complains line.toList) ∘ text = isWarning := funext complains_text
  rw [shown, List.filter_map, same, List.filter_filter]
  congr 1
  refine List.filter_congr fun m _ => ?_
  cases warns : m.isWarning with
  | false => rfl
  | true => rw [shown_of_warning verbose m warns, Bool.and_self]

theorem render_closed (verbose : Nat) (messages : List Message) :
    (render verbose messages).toList = closed '\n' ((shown verbose messages).map String.toList) := by
  simp [render, shown, closed, String.toList_join, List.flatMap_map]

-- Where each message is one line, the complaints among the lines are the warnings.
theorem complaints_lined (verbose : Nat) (messages : List Message)
    (plain : ∀ m ∈ messages, m.isShown verbose = true → OneLine m.text) :
    ∃ lines, lines? (render verbose messages).toList = some lines ∧
      lines.filter complains = ((messages.filter isWarning).map text).map String.toList := by
  refine ⟨(shown verbose messages).map String.toList, ?_, ?_⟩
  · rw [render_closed]
    refine lines_closed _ fun line member => ?_
    obtain ⟨text, told, rfl⟩ := List.mem_map.mp member
    obtain ⟨m, kept, rfl⟩ := List.mem_map.mp told
    obtain ⟨listed, here⟩ := List.mem_filter.mp kept
    exact plain m listed here
  · rw [List.filter_map]
    exact congrArg (List.map String.toList) (complaints_shown verbose messages)

-- Nothing that the log takes from outside of a module has a line feed.
structure Unbroken (verbose : Nat) (directory : String) (refusal : String → Option String) : Prop where
  reasons : Sink.OneLined refusal
  -- The files are named at this verbosity.
  directory : Level.debug.verbosity ≤ verbose → OneLine directory

section

variable (verbose : Nat) (directory : String) (refusal : String → Option String)

structure Told (m : Message) : Prop where
  log : m.isLog = true
  oneLine : Unbroken verbose directory refusal → m.isShown verbose = true → OneLine m.text

def Logged (messages : List Message) : Prop := ∀ m ∈ messages, m.Told verbose directory refusal

end

section

variable {verbose : Nat} {directory : String} {refusal : String → Option String}

theorem log_one_line (level : Level) (told : String) (plain : OneLine told) : OneLine (log level told).text := by
  have tag : OneLine level.tag := by cases level <;> decide
  simp +decide [text, tag, plain]

theorem told_of_one_line (level : Level) (told : String) (plain : OneLine told) :
    (log level told).Told verbose directory refusal := ⟨rfl, fun _ _ => log_one_line level told plain⟩

theorem logged_nil : Logged verbose directory refusal [] := fun _ member => (List.not_mem_nil member).elim

theorem logged_cons (m : Message) (rest : List Message) (first : m.Told verbose directory refusal)
    (later : Logged verbose directory refusal rest) : Logged verbose directory refusal (m :: rest) :=
  List.forall_mem_cons.mpr ⟨first, later⟩

theorem logged_append (before after : List Message) (first : Logged verbose directory refusal before)
    (later : Logged verbose directory refusal after) : Logged verbose directory refusal (before ++ after) :=
  List.forall_mem_append.mpr ⟨first, later⟩

theorem logged_map {α : Type} (items : List α) (line : α → Message)
    (each : ∀ item ∈ items, (line item).Told verbose directory refusal) :
    Logged verbose directory refusal (items.map line) := by
  intro m member
  obtain ⟨item, listed, rfl⟩ := List.mem_map.mp member
  exact each item listed

theorem logged_quiet (messages : List Message) (logged : Logged verbose directory refusal messages) :
    messages.filter isWarning = [] := by
  refine List.filter_eq_nil_iff.mpr fun m member warns => ?_
  have log := (logged m member).log
  cases m with
  | log level told => cases warns
  | warning told => cases log
  | fatal told => cases log
  | failure told => cases log

end

end Message

theorem Flow.Loop.text_one_line (l : Loop) : OneLine l.text := by
  unfold text
  cases l.outer <;> simp +decide

theorem file_names_one_line (options : Options) (loopId : Nat) : ∀ name ∈ options.fileNames loopId, OneLine name := by
  unfold Options.fileNames dotFile recordFile
  cases options.dot <;> cases options.record <;> simp +decide

namespace Narrative

open Message LoopDeps.Flow LoopDeps.ControlLinks

section

variable {verbose : Nat} {directory : String} {refusal : String → Option String}

-- What is told of a function alone.
section

variable (f : Func) (plain : f.OneLined)

include plain

theorem parsed_told : (parsed f).Told verbose directory refusal :=
  told_of_one_line .debug _ (by simp +decide [plain.name])

theorem dominance_logged (verb : String) (word : OneLine verb) (d : Dominance) :
    Logged verbose directory refusal (dominanceLines f verb d) := by
  refine logged_map _ _ fun ⟨block, set⟩ member => told_of_one_line .trace _ ?_
  have label := plain.labels block (List.of_mem_zip member).1
  simp +decide [label, word]

theorem loops_logged (forest : LoopForest) : Logged verbose directory refusal (loopLines f forest) := by
  refine logged_map _ _ fun l _ => told_of_one_line .trace _ ?_
  have label : OneLine ((f.block? l.header).elim "" Block.label) := by
    cases here : f.block? l.header with
    | none => decide
    | some block => exact plain.labels block (List.mem_of_getElem? here)
  simp +decide [label]

theorem forest_logged (forest : LoopForest) : Logged verbose directory refusal (forestLines f forest) := by
  refine logged_cons _ _ (told_of_one_line .debug _ (by simp +decide [plain.name])) ?_
  refine logged_map _ _ fun ⟨l, id⟩ _ => told_of_one_line .trace _ ?_
  simp +decide [l.text_one_line]

end

theorem controls_logged (before after : Graph) : Logged verbose directory refusal (controlLines before after) := by
  refine logged_map _ _ fun e _ => told_of_one_line .trace _ ?_
  have kind : OneLine (controlText e.kind) := by
    cases e.kind with
    | data => decide
    | control arm => cases arm <;> decide
  simp +decide [kind]

theorem expansion_logged (addresses chain : List NodeId) :
    Logged verbose directory refusal (expansionLines addresses chain) := by
  fun_induction expansionLines addresses chain with
  | case1 address addresses add1 add2 multiply size chain ih =>
      refine logged_cons _ _ (told_of_one_line .debug _ ?_) ih
      simp +decide [idList, String.intercalate_cons_cons]
  | case2 => exact logged_nil

theorem chain_logged (f : Func) (before after : Graph) :
    Logged verbose directory refusal (chainLines f before after) := by
  refine logged_append _ _ (expansion_logged _ _) ?_
  split
  · exact logged_nil
  · exact logged_cons _ _ (told_of_one_line .debug _ (by simp +decide)) logged_nil

theorem backedges_logged (before : Graph) : Logged verbose directory refusal (backedgeLines before) :=
  logged_map _ _ fun _ _ => told_of_one_line .trace _ (by simp +decide)

theorem stage_lines_logged (left : List Stage)
    (each : ∀ stage ∈ left, ∀ before after, Logged verbose directory refusal (stage.lines before after)) (g : Graph) :
    Logged verbose directory refusal (stageLines left g) := by
  induction left generalizing g with
  | nil => exact logged_nil
  | cons stage rest ih =>
      have first := each stage List.mem_cons_self
      rw [stageLines]
      split
      · exact logged_append _ _ (first _ _) (ih (fun other member => each other (List.mem_cons_of_mem _ member)) _)
      · exact first _ _

section

variable (body : Body) (plain : body.func.OneLined) (g : Graph) (placed : Graph.Placed body.instrs g)

include plain placed

theorem nodes_logged : Logged verbose directory refusal (nodeLines body.func g) := by
  refine logged_map _ _ fun n member => told_of_one_line .trace _ ?_
  obtain ⟨id, node⟩ := Table.mem_values.mp member
  obtain ⟨i, inside, rfl⟩ := Graph.placed_node body.instrs g placed id n node
  have opcode : OneLine (Graph.nodeOf id i).label := plain.opcodes i.id i.instr (body.instr_defined i inside)
  simp +decide [opcode, plain.values]

omit placed in
theorem externals_logged (next : Graph) (uses : List ValueId) (links : Nat)
    (supplied : DataLinks.Supplied body.func g uses links next) :
    Logged verbose directory refusal (externalLines g next) := by
  refine logged_map _ _ fun n member => told_of_one_line .trace _ ?_
  obtain ⟨listed, late⟩ := List.mem_filter.mp member
  obtain ⟨id, node⟩ := Table.mem_values.mp listed
  have key : n.id = id := supplied.well.indexed.nodeKeys id n node
  have label : OneLine n.label :=
    supplied.labels id n node (key ▸ of_decide_eq_true late) ▸ plain.values n.value
  simp +decide [label]

end

theorem construction_logged (body : Body) (pdom : PostDominates) (plain : body.func.OneLined) :
    Logged verbose directory refusal (constructionLines body pdom) := by
  unfold constructionLines
  split
  · exact logged_nil
  · rename_i g started
    have placed := Graph.of_body_placed body g started
    obtain ⟨next, ran, supplied⟩ := DataLinks.pass_supplies body g placed
    refine logged_append _ _ (nodes_logged body plain g placed) ?_
    rw [stages, stageLines]
    simp only [ran]
    refine logged_append _ _ (externals_logged body plain g next _ _ supplied)
      (stage_lines_logged _ (fun stage member before after => ?_) next)
    simp only [List.mem_cons, List.not_mem_nil, or_false] at member
    rcases member with rfl | rfl | rfl
    · exact controls_logged before after
    · exact chain_logged body.func before after
    · exact backedges_logged before

theorem writing_logged (sink : Sink) (names : List String) (plain : ∀ name ∈ names, OneLine name) :
    Logged verbose directory refusal (writingLines directory sink names) := by
  induction names with
  | nil => exact logged_nil
  | cons name rest ih =>
      obtain ⟨first, later⟩ := List.forall_mem_cons.mp plain
      refine logged_cons _ _ ⟨rfl, fun unbroken shown => log_one_line .debug _ ?_⟩ ?_
      · have path := unbroken.directory (of_decide_eq_true shown)
        unfold Path.join
        split <;> simp +decide [path, first]
      · split
        · exact logged_nil
        · exact ih later

theorem outcome_told (report : Report) (plain : Unbroken verbose directory refusal → report.OneLined) :
    (outcomeLine report).Told verbose directory refusal := by
  refine ⟨?_, fun unbroken _ => ?_⟩
  · unfold outcomeLine
    cases report.outcome <;> rfl
  · obtain ⟨func, outcome⟩ := plain unbroken
    unfold outcomeLine
    cases here : report.outcome with
    | written nodes edges backedges => exact log_one_line .info _ (by simp +decide [func])
    | skipped reason =>
        rw [here] at outcome
        exact log_one_line .warn reason outcome
    | failed reason =>
        rw [here] at outcome
        exact log_one_line .error _ (by simp +decide [func, show OneLine reason from outcome])

theorem process_logged (run : Run) (body : Body) (pdom : PostDominates) (report : Report) (plain : body.func.OneLined)
    (reported : Unbroken verbose directory refusal → report.OneLined) :
    Logged verbose directory refusal (processLines directory run body pdom report) := by
  refine logged_append _ _ (logged_append _ _ (construction_logged body pdom plain) ?_)
    (logged_cons _ _ (outcome_told report reported) logged_nil)
  split
  · exact logged_nil
  · exact writing_logged run.sink _ (file_names_one_line run.options _)

theorem function_logged (run : Run) (kept : run.sink.refusal = refusal) (f : Func) (sound : f.Sound) (plain : f.OneLined) :
    Logged verbose directory refusal (functionLines directory run f) := by
  have found : Logged verbose directory refusal (dominanceLines f "dominates" (dominance f) ++
      loopLines f (LoopForest.ofFunc f) ++ forestLines f (LoopForest.ofFunc f)) :=
    logged_append _ _ (logged_append _ _ (dominance_logged f plain _ (by decide) _) (loops_logged f plain _))
      (forest_logged f plain _)
  have reported : ∀ report ∈ (run.analyzed f).reports.drop run.reports.length,
      Unbroken verbose directory refusal → report.OneLined := by
    intro report member unbroken
    obtain ⟨fresh, same, each⟩ := run.functions_one_lined [f] (by simpa using ⟨sound, plain⟩) (kept ▸ unbroken.reasons)
    have after : (run.analyzed f).reports = run.reports ++ fresh := same
    rw [after, List.drop_left] at member
    exact each report member
  unfold functionLines
  dsimp only
  split
  · exact found
  · refine logged_append _ _ (logged_append _ _ found (dominance_logged f plain _ (by decide) _)) ?_
    intro m member
    obtain ⟨⟨innermost, report⟩, paired, told⟩ := List.mem_flatMap.mp member
    exact process_logged run _ _ report plain (reported report (List.of_mem_zip paired).2) m told

theorem run_logged (run : Run) (kept : run.sink.refusal = refusal) (fs : List Func)
    (plain : ∀ f ∈ fs, f.Sound ∧ f.OneLined) : Logged verbose directory refusal (runLines directory run fs) := by
  induction fs generalizing run with
  | nil => exact logged_nil
  | cons f rest ih =>
      obtain ⟨⟨sound, first⟩, later⟩ := List.forall_mem_cons.mp plain
      have next : (run.analyzed f).sink.refusal = refusal := (run.functions_refusal [f]).trans kept
      exact logged_append _ _ (function_logged run kept f sound first) (ih _ next later)

end

end Narrative

end LoopDeps
