import LoopDeps.Proofs.Text.Declaring
set_option autoImplicit false

/- The second pass over a written function. Operands are looked up, and constants and globals take the ids behind
   the instructions in the order of their first use. -/
namespace LoopDeps

namespace Value

def constant? : Value → Option String
  | .constant text => some text
  | _ => none

def global? : Value → Option String
  | .global name => some name
  | _ => none

theorem constant_eq_some (value : Value) (text : String) : value.constant? = some text ↔ value = .constant text := by
  cases value <;> simp [constant?]

theorem global_eq_some (value : Value) (name : String) : value.global? = some name ↔ value = .global name := by
  cases value <;> simp [global?]

end Value

namespace Func

-- The ids of the shared values of one kind, the last one in front.
def spelled (pick : Value → Option String) (first : ValueId) (shared : List Value) : List (String × ValueId) :=
  ((shared.zipIdx first).filterMap fun entry => (pick entry.1).map fun text => (text, entry.2)).reverse

-- A function with some constants and globals behind its other values.
def sharing (fixed : Func) (shared : List Value) : Func :=
  { fixed with
    values := fixed.values ++ shared
    constants := spelled Value.constant? fixed.values.length shared
    globals := spelled Value.global? fixed.values.length shared }

theorem sharing_nil (fixed : Func) (constants : fixed.constants = []) (globals : fixed.globals = []) :
    fixed.sharing [] = fixed := by
  cases fixed
  cases constants
  cases globals
  simp [sharing, spelled]

def note (shared : List Value) (value : Value) : List Value :=
  if value ∈ shared then shared else shared ++ [value]

theorem note_nodup (shared : List Value) (value : Value) (once : shared.Nodup) : (note shared value).Nodup := by
  unfold note
  split
  · exact once
  · rename_i fresh
    rw [List.nodup_append_comm, List.singleton_append, List.nodup_cons]
    exact ⟨fresh, once⟩

theorem mem_note (shared : List Value) (value : Value) : value ∈ note shared value := by
  unfold note
  split
  · assumption
  · simp

theorem note_extends (shared : List Value) (value : Value) : shared <+: note shared value := by
  unfold note
  split
  · exact List.prefix_refl _
  · exact List.prefix_append _ _

section

variable (pick : Value → Option String) (make : String → Value) (picks : ∀ value text, pick value = some text ↔ value = make text)
  (first : ValueId) (shared : List Value)

include picks

theorem mem_spelled (text : String) (id : ValueId) :
    (text, id) ∈ spelled pick first shared ↔ first ≤ id ∧ shared[id - first]? = some (make text) := by
  simp only [spelled, List.mem_reverse, List.mem_filterMap, Prod.exists, List.mem_zipIdx_iff_le_and_getElem?_sub,
    Option.map_eq_some_iff]
  constructor
  · rintro ⟨value, _, ⟨least, here⟩, _, picked, same⟩
    obtain ⟨rfl, rfl⟩ := Prod.mk.inj same
    exact ⟨least, (picks value _).mp picked ▸ here⟩
  · rintro ⟨least, here⟩
    exact ⟨make text, id, ⟨least, here⟩, text, (picks _ _).mpr rfl, rfl⟩

theorem spelled_once (once : shared.Nodup) : ((spelled pick first shared).map Prod.fst).Nodup := by
  have keys : (spelled pick first shared).map Prod.fst = (shared.filterMap pick).reverse := by
    have row : shared.filterMap pick = (shared.zipIdx first).filterMap fun entry => pick entry.1 := by
      conv => lhs; rw [← List.zipIdx_map_fst first shared, List.filterMap_map]
      rfl
    rw [spelled, List.map_reverse, List.map_filterMap, row]
    congr 2
    funext entry
    cases pick entry.1 <;> rfl
  rw [keys, List.nodup_reverse]
  apply once.filterMap
  intro value other text here there
  rw [(picks value text).mp here, (picks other text).mp there]

theorem lookup_spelled (once : shared.Nodup) (text : String) :
    (spelled pick first shared).lookup text =
      if make text ∈ shared then some (first + shared.idxOf (make text)) else none := by
  by_cases member : make text ∈ shared
  · rw [if_pos member, Text.lookup_iff_mem _ (spelled_once pick make picks first shared once),
      mem_spelled pick make picks]
    have bound := List.idxOf_lt_length_of_mem member
    simp [bound]
  · rw [if_neg member]
    apply Option.not_isSome_iff_eq_none.mp
    rw [Text.lookup_known, List.mem_map]
    rintro ⟨⟨_, id⟩, listed, rfl⟩
    have here := ((mem_spelled pick make picks first shared _ id).mp listed).2
    exact member (List.mem_of_getElem? here)

end

theorem spelled_append (pick : Value → Option String) (first : ValueId) (shared : List Value) (value : Value) :
    spelled pick first (shared ++ [value]) =
      ((pick value).map fun text => (text, first + shared.length)).toList ++ spelled pick first shared := by
  cases picked : pick value <;> simp [spelled, List.zipIdx_append, picked]

section

variable (fixed : Func) (shared : List Value) (once : shared.Nodup) (text : String)

include once

theorem constant_sharing : (sharing fixed shared).constant text =
    (sharing fixed (note shared (.constant text)),
      fixed.values.length + (note shared (.constant text)).idxOf (.constant text)) := by
  have found := lookup_spelled _ _ Value.constant_eq_some fixed.values.length shared once text
  have constants := spelled_append Value.constant? fixed.values.length shared (.constant text)
  have globals := spelled_append Value.global? fixed.values.length shared (.constant text)
  unfold constant note
  dsimp only [sharing]
  rw [found]
  by_cases member : Value.constant text ∈ shared
  · simp only [member, if_true]
  · simp [member, addValue, constants, globals, Value.constant?, Value.global?, List.idxOf_append]

theorem global_sharing : (sharing fixed shared).global text =
    (sharing fixed (note shared (.global text)),
      fixed.values.length + (note shared (.global text)).idxOf (.global text)) := by
  have found := lookup_spelled _ _ Value.global_eq_some fixed.values.length shared once text
  have constants := spelled_append Value.constant? fixed.values.length shared (.global text)
  have globals := spelled_append Value.global? fixed.values.length shared (.global text)
  unfold global note
  dsimp only [sharing]
  rw [found]
  by_cases member : Value.global text ∈ shared
  · simp only [member, if_true]
  · simp [member, addValue, constants, globals, Value.constant?, Value.global?, List.idxOf_append]

end

theorem define_sharing (fixed : Func) (shared : List Value) (id : ValueId) (instr : Instr) (bound : id < fixed.values.length) :
    (sharing fixed shared).define id instr = sharing (fixed.define id instr) shared := by
  simp [define, sharing, bound]

end Func

namespace Text

namespace WrittenValue

def spelling : WrittenValue → String
  | .name text => "%" ++ text
  | .global text => "@" ++ text
  | .constant text => text

def name? : WrittenValue → Option String
  | .name text => some text
  | _ => none

-- Constants and globals, which all uses in a function share.
def shared? : WrittenValue → Option Value
  | .name _ => none
  | .global text => some (.global text)
  | .constant text => some (.constant text)

def Known (scope : Scope) : WrittenValue → Prop
  | .name text => (scope.locals.lookup text).isSome = true
  | _ => True

def noted (shared : List Value) (value : WrittenValue) : List Value := value.shared?.elim shared (Func.note shared)

-- The id of a value, where the shared ones stand behind the first ids.
def idIn (scope : Scope) (first : ValueId) (shared : List Value) : WrittenValue → ValueId
  | .name text => (scope.locals.lookup text).getD 0
  | .global text => first + shared.idxOf (.global text)
  | .constant text => first + shared.idxOf (.constant text)

theorem noted_nodup (shared : List Value) (value : WrittenValue) (once : shared.Nodup) :
    (value.noted shared).Nodup := by
  unfold noted
  cases value.shared? with
  | none => exact once
  | some common => exact Func.note_nodup shared common once

theorem noted_extends (shared : List Value) (value : WrittenValue) : shared <+: value.noted shared := by
  unfold noted
  cases value.shared? with
  | none => exact List.prefix_refl _
  | some common => exact Func.note_extends shared common

-- Later uses do not change an id.
theorem id_in_more (scope : Scope) (first : ValueId) (shared more : List Value) (goesOn : shared <+: more)
    (value : WrittenValue) (inside : ∀ common ∈ value.shared?, common ∈ shared) :
    value.idIn scope first more = value.idIn scope first shared := by
  obtain ⟨rest, rfl⟩ := goesOn
  cases value with
  | name name => rfl
  | global name => simp [idIn, List.idxOf_append, inside (.global name) rfl]
  | constant text => simp [idIn, List.idxOf_append, inside (.constant text) rfl]

theorem mem_noted (shared : List Value) (value : WrittenValue) : ∀ common ∈ value.shared?, common ∈ value.noted shared := by
  intro common same
  rw [noted, Option.mem_def.mp same]
  exact Func.mem_note shared common

end WrittenValue

namespace WrittenOperand

def value? : WrittenOperand → Option WrittenValue
  | .value written => some written
  | .incoming written _ => some written
  | .label _ => none

def label? : WrittenOperand → Option String
  | .label text => some text
  | _ => none

def Known (scope : Scope) (operand : WrittenOperand) : Prop :=
  (∀ value ∈ operand.value?, value.Known scope) ∧
    ∀ label ∈ operand.label?, (scope.labels.lookup label).isSome = true

end WrittenOperand

namespace WrittenInstr

def values (instr : WrittenInstr) : List WrittenValue := instr.operands.filterMap WrittenOperand.value?

def labels (instr : WrittenInstr) : List String := instr.operands.filterMap WrittenOperand.label?

end WrittenInstr

namespace Operands

theorem add_value_ok_iff (scope : Scope) (fixed : Func) (shared : List Value) (once : shared.Nodup) (values : List ValueId)
    (targets : List BlockId) (value : WrittenValue) (next : Operands) :
    addValue scope ⟨fixed.sharing shared, values, targets⟩ value = .ok next ↔
      value.Known scope ∧ next = ⟨fixed.sharing (value.noted shared),
        values ++ [value.idIn scope fixed.values.length (value.noted shared)], targets⟩ := by
  cases value with
  | name name =>
      simp only [addValue, WrittenValue.Known, WrittenValue.noted, WrittenValue.shared?, WrittenValue.idIn]
      cases scope.locals.lookup name <;> simp [eq_comm]
  | global name =>
      simp [addValue, WrittenValue.Known, WrittenValue.noted, WrittenValue.shared?, WrittenValue.idIn,
        Func.global_sharing fixed shared once, eq_comm]
  | constant text =>
      simp [addValue, WrittenValue.Known, WrittenValue.noted, WrittenValue.shared?, WrittenValue.idIn,
        Func.constant_sharing fixed shared once, eq_comm]

-- The operands of an instruction, once the shared values among them are noted.
def gathered (scope : Scope) (fixed : Func) (shared : List Value) (operands : List WrittenOperand) : Operands :=
  let values := operands.filterMap WrittenOperand.value?
  let noted := values.foldl WrittenValue.noted shared
  { func := fixed.sharing noted
    values := values.map (WrittenValue.idIn scope fixed.values.length noted)
    targets := (operands.filterMap WrittenOperand.label?).map fun label => (scope.labels.lookup label).getD 0 }

end Operands

theorem noted_all_extends (values : List WrittenValue) (shared : List Value) :
    shared <+: values.foldl WrittenValue.noted shared := by
  induction values generalizing shared with
  | nil => exact List.prefix_refl _
  | cons value rest ih => exact (value.noted_extends shared).trans (ih _)

theorem noted_all_nodup (values : List WrittenValue) (shared : List Value) (once : shared.Nodup) :
    (values.foldl WrittenValue.noted shared).Nodup := by
  induction values generalizing shared with
  | nil => exact once
  | cons value rest ih => exact ih _ (value.noted_nodup shared once)

theorem mem_noted_all (values : List WrittenValue) (shared : List Value) (value : WrittenValue) (member : value ∈ values) :
    ∀ common ∈ value.shared?, common ∈ values.foldl WrittenValue.noted shared := by
  induction values generalizing shared with
  | nil => cases member
  | cons first rest ih =>
      rcases List.mem_cons.mp member with rfl | later
      · intro common same
        exact (noted_all_extends rest _).subset (value.mem_noted shared common same)
      · exact ih _ later

theorem ids_in_more (scope : Scope) (first : ValueId) (shared more : List Value) (values : List WrittenValue)
    (goesOn : values.foldl WrittenValue.noted shared <+: more) :
    values.map (WrittenValue.idIn scope first more) =
      values.map (WrittenValue.idIn scope first (values.foldl WrittenValue.noted shared)) := by
  apply List.map_congr_left
  intro value member
  exact value.id_in_more scope first _ more goesOn (mem_noted_all values shared value member)

namespace Operands

theorem gathered_value (scope : Scope) (fixed : Func) (shared : List Value) (done : List WrittenOperand)
    (operand : WrittenOperand) (value : WrittenValue) (here : operand.value? = some value)
    (noLabel : operand.label? = none) :
    gathered scope fixed shared (done ++ [operand]) =
      let before := (done.filterMap WrittenOperand.value?).foldl WrittenValue.noted shared
      ⟨fixed.sharing (value.noted before),
        (gathered scope fixed shared done).values ++ [value.idIn scope fixed.values.length (value.noted before)],
        (gathered scope fixed shared done).targets⟩ := by
  have same := ids_in_more scope fixed.values.length shared _ (done.filterMap WrittenOperand.value?)
    (value.noted_extends _)
  simp [gathered, here, noLabel, List.filterMap_append, same]

theorem gathered_label (scope : Scope) (fixed : Func) (shared : List Value) (done : List WrittenOperand) (label : String) :
    gathered scope fixed shared (done ++ [.label label]) =
      let before := gathered scope fixed shared done
      { before with targets := before.targets ++ [(scope.labels.lookup label).getD 0] } := by
  have noValue : [WrittenOperand.label label].filterMap WrittenOperand.value? = [] := rfl
  have oneLabel : [WrittenOperand.label label].filterMap WrittenOperand.label? = [label] := rfl
  simp [gathered, List.filterMap_append, noValue, oneLabel]

theorem add_one_ok_iff (scope : Scope) (fixed : Func) (shared : List Value) (once : shared.Nodup)
    (done : List WrittenOperand) (operand : WrittenOperand) (next : Operands) :
    (gathered scope fixed shared done).add scope operand = .ok next ↔
      operand.Known scope ∧ next = gathered scope fixed shared (done ++ [operand]) := by
  have clear := noted_all_nodup (done.filterMap WrittenOperand.value?) shared once
  have added : ∀ value, (gathered scope fixed shared done).addValue scope value = .ok next ↔ _ := fun value =>
    add_value_ok_iff scope fixed _ clear (gathered scope fixed shared done).values
      (gathered scope fixed shared done).targets value next
  cases operand with
  | value value =>
      rw [gathered_value scope fixed shared done _ value rfl rfl]
      simpa only [add, WrittenOperand.Known, WrittenOperand.value?, WrittenOperand.label?, Option.mem_def,
        Option.some.injEq, forall_eq', reduceCtorEq, false_imp_iff, implies_true, and_true] using added value
  | incoming value block =>
      rw [gathered_value scope fixed shared done _ value rfl rfl]
      simpa only [add, WrittenOperand.Known, WrittenOperand.value?, WrittenOperand.label?, Option.mem_def,
        Option.some.injEq, forall_eq', reduceCtorEq, false_imp_iff, implies_true, and_true] using added value
  | label label =>
      rw [gathered_label]
      simp only [add, WrittenOperand.Known, WrittenOperand.value?, WrittenOperand.label?, Option.mem_def,
        Option.some.injEq, forall_eq', reduceCtorEq, false_imp_iff, implies_true, true_and]
      cases scope.labels.lookup label with
      | none => simp
      | some id => simp only [Except.ok.injEq, Option.isSome_some, Option.getD_some, true_and, eq_comm]

theorem add_ok_iff (scope : Scope) (fixed : Func) (shared : List Value) (once : shared.Nodup)
    (operands : List WrittenOperand) (found : Operands) :
    operands.foldlM (add scope) ⟨fixed.sharing shared, [], []⟩ = .ok found ↔
      (∀ operand ∈ operands, operand.Known scope) ∧ found = gathered scope fixed shared operands := by
  apply fold_ok_iff _ (gathered scope fixed shared) fun done => ∀ operand ∈ done, operand.Known scope
  · simp
  · exact fun done operand good other member => good other (List.mem_append_left _ member)
  · intro done operand _ next good
    rw [add_one_ok_iff scope fixed shared once]
    have all : (∀ other ∈ done ++ [operand], other.Known scope) ↔ operand.Known scope := by
      simpa [or_imp, forall_and] using fun _ => good
    rw [all]

end Operands

namespace Declared

-- The instruction that comes of a declared one when the shared values stand behind the first ids.
def meaning (scope : Scope) (first : ValueId) (shared : List Value) (declared : Declared) : Instr :=
  { name := declared.written.result
    opcode := declared.written.opcode
    type := declared.type
    operands := declared.written.values.map (WrittenValue.idIn scope first shared)
    targets := declared.written.labels.map fun label => (scope.labels.lookup label).getD 0
    block := declared.block }

def Known (scope : Scope) (declared : Declared) : Prop :=
  ∀ operand ∈ declared.written.operands, operand.Known scope

-- The constants and globals of some instructions, in the order of their first use.
def uses (declared : List Declared) : List Value :=
  (declared.flatMap fun one => one.written.values).foldl WrittenValue.noted []

theorem uses_append (done : List Declared) (declared : Declared) :
    uses (done ++ [declared]) = declared.written.values.foldl WrittenValue.noted (uses done) := by
  simp [uses, List.foldl_append]

theorem uses_nodup (done : List Declared) : (uses done).Nodup := noted_all_nodup _ [] List.nodup_nil

theorem meaning_in_more (scope : Scope) (first : ValueId) (more : List Value) (done : List Declared)
    (goesOn : uses done <+: more) (declared : Declared) (member : declared ∈ done) :
    declared.meaning scope first more = declared.meaning scope first (uses done) := by
  have same := ids_in_more scope first [] more _ goesOn
  have operands : declared.written.values.map (WrittenValue.idIn scope first more) =
      declared.written.values.map (WrittenValue.idIn scope first (uses done)) := by
    apply List.map_congr_left
    intro value here
    exact List.map_inj_left.mp same value (List.mem_flatMap.mpr ⟨declared, member, here⟩)
  rw [meaning, meaning, operands]

end Declared

namespace Scope

theorem define_instr_ok_iff (scope : Scope) (fixed : Func) (shared : List Value) (once : shared.Nodup) (declared : Declared)
    (bound : declared.id < fixed.values.length) (next : Func) :
    scope.defineInstr (fixed.sharing shared) declared = .ok next ↔
      declared.Known scope ∧
        next =
          let noted := declared.written.values.foldl WrittenValue.noted shared
          (fixed.define declared.id (declared.meaning scope fixed.values.length noted)).sharing noted := by
  simp only [defineInstr, bind_ok_iff, Operands.add_ok_iff scope fixed shared once, pure, Except.pure, Except.ok.injEq]
  rw [← Func.define_sharing fixed _ declared.id _ bound]
  constructor
  · rintro ⟨_, ⟨known, rfl⟩, rfl⟩
    exact ⟨known, rfl⟩
  · rintro ⟨known, rfl⟩
    exact ⟨_, ⟨known, rfl⟩, rfl⟩

-- Some declared instructions in their slots, and in front of no others.
def filled (scope : Scope) (shared : List Value) (done : List Declared) : Func :=
  done.foldl (fun func declared => func.define declared.id (declared.meaning scope scope.func.values.length shared))
    scope.func

theorem filled_size (scope : Scope) (shared : List Value) (done : List Declared) :
    (scope.filled shared done).values.length = scope.func.values.length := by
  unfold filled
  induction done using List.reverseRecOn with
  | nil => rfl
  | append_singleton done declared ih => simpa [Func.define] using ih

theorem filled_in_more (scope : Scope) (more : List Value) (done : List Declared) (goesOn : Declared.uses done <+: more) :
    scope.filled more done = scope.filled (Declared.uses done) done := by
  apply List.foldl_ext
  intro func declared member
  rw [declared.meaning_in_more scope _ more done goesOn member]

theorem define_all_ok_iff (scope : Scope) (constants : scope.func.constants = []) (globals : scope.func.globals = [])
    (bounds : ∀ one ∈ scope.declared, one.id < scope.func.values.length) (func : Func) :
    scope.declared.foldlM scope.defineInstr scope.func = .ok func ↔
      (∀ one ∈ scope.declared, one.Known scope) ∧
        func = (scope.filled (Declared.uses scope.declared) scope.declared).sharing (Declared.uses scope.declared) := by
  have start : scope.func = (scope.filled (Declared.uses []) []).sharing (Declared.uses []) :=
    (scope.func.sharing_nil constants globals).symm
  conv => lhs; rw [start]
  apply fold_ok_iff _ (fun done => (scope.filled (Declared.uses done) done).sharing (Declared.uses done))
    fun done => ∀ one ∈ done, one.Known scope
  · simp
  · exact fun done one good other member => good other (List.mem_append_left _ member)
  · intro done one member next good
    have size := scope.filled_size (Declared.uses done) done
    have bound : one.id < (scope.filled (Declared.uses done) done).values.length := by
      rw [size]
      exact bounds one member
    have goesOn : Declared.uses done <+: Declared.uses (done ++ [one]) := by
      rw [Declared.uses_append]
      exact noted_all_extends _ _
    have all : (∀ other ∈ done ++ [one], other.Known scope) ↔ one.Known scope := by
      simpa [or_imp, forall_and] using fun _ => good
    have grown : scope.filled (Declared.uses (done ++ [one])) (done ++ [one]) =
        (scope.filled (Declared.uses done) done).define one.id
          (one.meaning scope scope.func.values.length (Declared.uses (done ++ [one]))) := by
      rw [← scope.filled_in_more _ done goesOn]
      simp [filled]
    rw [define_instr_ok_iff scope _ _ (Declared.uses_nodup done) one bound, all, size, grown, Declared.uses_append]

end Scope

end Text

end LoopDeps
