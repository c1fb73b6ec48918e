import LoopDeps.Proofs.Run.Outcomes
import LoopDeps.Proofs.Run.Shifting
import LoopDeps.Proofs.Text.Clashing
set_option autoImplicit false

/- Which texts stay on one line. No word of a module that can be read has a line feed, so that what a run tells of
   its functions has none either, unless the system gives one as its reason for refusing a file. -/
namespace LoopDeps

def OneLine (text : String) : Prop := '\n' ∉ text.toList

instance (text : String) : Decidable (OneLine text) := inferInstanceAs (Decidable ('\n' ∉ text.toList))

@[simp] theorem one_line_append (a b : String) : OneLine (a ++ b) ↔ OneLine a ∧ OneLine b := by
  simp only [OneLine, String.toList_append, List.mem_append, not_or]

@[simp] theorem one_line_nat (n : Nat) : OneLine n.repr := (Output.digits_plain n).2

namespace Text

open Source (IsValue)

theorem one_line_spelled (start member : Char → Bool) (text : String) (spelled : Spelled start member text)
    (first : start '\n' = false) (others : member '\n' = false) : OneLine text := by
  obtain ⟨c, more, same, opens, all⟩ := spelled
  rw [OneLine, same]
  intro inside
  rcases List.mem_cons.mp inside with rfl | later
  · exact Bool.false_ne_true (first.symm.trans opens)
  · exact Bool.false_ne_true (others.symm.trans (all _ later))

theorem one_line_name (text : String) (valid : IsName text) : OneLine text :=
  one_line_spelled _ _ text valid (by decide) (by decide)

theorem one_line_number (text : String) (valid : IsNumber text) : OneLine text := by
  obtain ⟨minus, whole, part, power, same, sign, digits, fraction, exponent⟩ := valid
  have digit : ∀ digits, IsDigits digits → '\n' ∉ digits := fun _ valid inside => absurd (valid.2 _ inside) (by decide)
  rw [OneLine, same]
  simp only [List.mem_append, not_or]
  refine ⟨⟨⟨?_, digit whole digits⟩, ?_⟩, ?_⟩
  · rcases sign with rfl | rfl <;> decide
  · rcases fraction with rfl | ⟨tenths, rfl, valid⟩
    · exact List.not_mem_nil
    · simpa using digit tenths valid
  · rcases exponent with rfl | ⟨letter, plus, tens, rfl, rfl | rfl, rfl | rfl | rfl, valid⟩
    · exact List.not_mem_nil
    all_goals simpa using digit tens valid

theorem one_line_value (value : WrittenValue) (valid : IsValue value) : OneLine value.spelling := by
  cases value with
  | name text => exact (one_line_append _ _).mpr ⟨by decide, one_line_name text valid⟩
  | global text => exact (one_line_append _ _).mpr ⟨by decide, one_line_name text valid⟩
  | constant text =>
      rcases valid with number | keyword
      · exact one_line_number text number
      · revert text
        decide

end Text

-- What a function is written with.
structure Func.OneLined (f : Func) : Prop where
  name : OneLine f.name
  labels : ∀ block ∈ f.blocks, OneLine block.label
  opcodes : ∀ id instr, f.instr? id = some instr → OneLine instr.opcode
  values : ∀ id, OneLine (f.valueName id)

namespace Text.WrittenFunction

section

variable (written : WrittenFunction) (resolvable : written.Resolvable) (spelled : written.Spelled)

include spelled

theorem local_one_lined (id : ValueId) (name : String) (here : written.resolved.localName? id = some name) :
    OneLine name := by
  have member := List.mem_of_getElem? (written.local_place id name here)
  rcases List.mem_append.mp member with param | result
  · obtain ⟨param, listed, same⟩ := List.mem_map.mp param
    exact one_line_name name (Option.some.inj same ▸ spelled.params param listed)
  · obtain ⟨entry, listed, same⟩ := List.mem_map.mp result
    exact one_line_name name ((written.entry_spelled spelled entry listed).result name same)

theorem value_one_lined (id : ValueId) : OneLine (written.resolved.valueName id) := by
  rw [Func.value_name_shown]
  unfold Func.shown
  split
  · rename_i text here
    exact one_line_value _ (written.valid_value spelled _ (written.used_shared (.constant text) _ id rfl here))
  · rename_i name here
    exact one_line_value _ (written.valid_value spelled _ (written.used_shared (.global name) _ id rfl here))
  · refine (one_line_append _ _).mpr ⟨by decide, ?_⟩
    cases own : written.resolved.localName? id with
    | none => exact (one_line_append _ _).mpr ⟨by decide, one_line_nat id⟩
    | some name => exact written.local_one_lined spelled id name own

include resolvable

theorem one_lined : written.resolved.OneLined := by
  have faithful := written.faithful resolvable
  refine ⟨faithful.name ▸ one_line_name _ spelled.name, ?_, ?_, written.value_one_lined spelled⟩
  · intro block member
    have listed : block.label ∈ written.blocks.map WrittenBlock.label := faithful.labels ▸ List.mem_map_of_mem member
    obtain ⟨source, here, same⟩ := List.mem_map.mp listed
    exact same ▸ one_line_spelled _ _ _ (spelled.blocks source here).label (by decide) (by decide)
  · intro id instr here
    obtain ⟨entry, listed, rfl⟩ := List.mem_map.mp (written.made_of_instr id instr here)
    exact one_line_spelled _ _ _ (written.entry_spelled spelled entry listed).opcode (by decide) (by decide)

end

theorem resolved_sound (written : WrittenFunction) (resolvable : written.Resolvable) : written.resolved.Sound := by
  have faithful := written.faithful resolvable
  refine ⟨?_, ?_⟩
  · intro block member id listed
    obtain ⟨position, here⟩ := List.mem_iff_getElem?.mp member
    rw [faithful.listings position block here] at listed
    obtain ⟨instr, defined, _⟩ := (Option.any_eq_true _ _).mp (List.mem_filter.mp listed).2
    exact ⟨instr, defined⟩
  · intro block member branches nothing
    obtain ⟨position, here⟩ := List.mem_iff_getElem?.mp member
    have succ := faithful.succ position block here
    rw [nothing, Func.succ, Func.block?, here] at succ
    exact branches succ

end Text.WrittenFunction

theorem parsed_one_lined (text : String) (functions : List Func) (parses : parse text = .ok functions) :
    ∀ f ∈ functions, f.Sound ∧ f.OneLined := by
  obtain ⟨written, read, comes⟩ := parsed_from text functions parses
  intro f member
  obtain ⟨one, listed, resolvable, rfl⟩ := comes f member
  exact ⟨one.resolved_sound resolvable, one.one_lined resolvable (Text.read_spelled text.toList written read one listed)⟩

def Outcome.OneLined : Outcome → Prop
  | .written .. => True
  | .skipped reason => OneLine reason
  | .failed reason => OneLine reason

structure Report.OneLined (report : Report) : Prop where
  func : OneLine report.func
  outcome : report.outcome.OneLined

-- Every reason for refusing a file stays on one line.
def Sink.OneLined (refusal : String → Option String) : Prop := ∀ name reason, refusal name = some reason → OneLine reason

theorem Outcome.one_lined_of_error (error : LoopError) (plain : OneLine error.message) : (Outcome.ofError error).OneLined := by
  cases error <;> exact plain

theorem construct_one_lined (body : Body) (pdom : ControlLinks.PostDominates) (sound : body.func.Sound)
    (plain : body.func.OneLined) (error : LoopError) (failed : Graph.construct body pdom = .error error) :
    OneLine error.message := by
  unfold Graph.construct at failed
  rcases Graph.of_body_cases body with ⟨_, empty⟩ | ⟨_, start, started⟩
  · rw [empty] at failed
    cases failed
    simp +decide [LoopError.message]
  · rw [started] at failed
    dsimp only at failed
    rcases Graph.stages_cases body pdom start started with
      ⟨linked, controlled, middle, finished, completed⟩ | ⟨linked, controlled, cause, givenUp⟩
    · rw [completed.ran] at failed
      cases failed
    · rw [givenUp.ran] at failed
      cases failed
      have placed := Graph.of_body_placed body start started
      obtain ⟨block, ⟨_, branch, _, _, first, _⟩, rfl⟩ := givenUp.cause
        (Graph.covered_linked body sound start linked placed _ _ givenUp.supplied) (Graph.ended_of_sound body sound)
      have label := plain.labels block (List.mem_of_getElem? first.1)
      simp +decide [LoopError.message, label]

section

variable (asked : Options) (refusal : String → Option String) (reasons : Sink.OneLined refusal)

include reasons

theorem report_one_lined (visit : Visit) (number : Nat) (sound : visit.func.Sound) (plain : visit.func.OneLined) :
    (Visit.report asked refusal (visit, number)).OneLined := by
  refine ⟨plain.name, ?_⟩
  show (Visit.outcome asked refusal (visit, number)).OneLined
  unfold Visit.outcome
  split
  · rename_i error failed
    exact Outcome.one_lined_of_error error (construct_one_lined _ visit.pdom sound plain error failed)
  · split
    · trivial
    · rename_i reason refused
      obtain ⟨file, _, here⟩ := List.exists_of_findSome?_eq_some refused
      have plain := reasons file.1 reason here
      exact Outcome.one_lined_of_error _ (by simp +decide [LoopError.message, plain])

end

namespace Run

theorem functions_refusal (run : Run) (fs : List Func) : (run.functions fs).sink.refusal = run.sink.refusal := by
  rw [functions_come, (come_all run (visits fs)).sink, Sink.keep_all_refusal]

theorem functions_one_lined (run : Run) (fs : List Func) (plain : ∀ f ∈ fs, f.Sound ∧ f.OneLined)
    (reasons : Sink.OneLined run.sink.refusal) :
    ∃ fresh, (run.functions fs).reports = run.reports ++ fresh ∧ ∀ report ∈ fresh, report.OneLined := by
  rw [functions_come]
  refine ⟨_, (come_all run (visits fs)).reports, fun report member => ?_⟩
  obtain ⟨⟨visit, number⟩, told, rfl⟩ := List.mem_map.mp member
  obtain ⟨_, _, place⟩ := List.mem_zipIdx (List.mem_filter.mp told).1
  have listed : visit ∈ visits fs := place ▸ List.getElem_mem _
  obtain ⟨f, inside, here⟩ := List.mem_flatMap.mp listed
  obtain ⟨loop, _, rfl⟩ := List.mem_map.mp here
  exact report_one_lined run.options run.sink.refusal reasons _ number (plain f inside).1 (plain f inside).2

end Run

end LoopDeps
