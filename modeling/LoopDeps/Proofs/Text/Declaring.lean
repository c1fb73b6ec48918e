import Mathlib.Data.List.Induction
import Mathlib.Data.List.Nodup
import LoopDeps.Text.Resolve
set_option autoImplicit false

/- The first pass over a written function. It succeeds exactly when all types can be told and no name comes up
   twice, and then the parameters and results have the ids of their places. -/
namespace LoopDeps.Text

section

variable {ε α β σ : Type}

theorem bind_ok_iff (first : Except ε α) (rest : α → Except ε β) (result : β) :
    first >>= rest = .ok result ↔ ∃ value, first = .ok value ∧ rest value = .ok result := by
  cases first with
  | error error => simp [bind, Except.bind]
  | ok value => simp [bind, Except.bind]

-- A loop that goes on exactly as long as the items done so far are good.
theorem fold_ok_iff (step : σ → α → Except ε σ) (state : List α → σ) (good : List α → Prop) (items : List α)
    (start : good []) (kept : ∀ done item, good (done ++ [item]) → good done)
    (each : ∀ done, ∀ item ∈ items, ∀ next, good done →
      (step (state done) item = .ok next ↔ good (done ++ [item]) ∧ next = state (done ++ [item])))
    (final : σ) : items.foldlM step (state []) = .ok final ↔ good items ∧ final = state items := by
  induction items using List.reverseRecOn generalizing final with
  | nil => simp [start, pure, Except.pure, eq_comm]
  | append_singleton done item ih =>
      have before := ih fun done item member => each done item (List.mem_append_left _ member)
      have last := each done item (by simp)
      rw [List.foldlM_append, bind_ok_iff]
      simp only [List.foldlM_cons, List.foldlM_nil, bind_pure]
      constructor
      · rintro ⟨middle, ran, ranLast⟩
        obtain ⟨goodDone, rfl⟩ := (before middle).mp ran
        exact (last final goodDone).mp ranLast
      · rintro ⟨goodAll, rfl⟩
        have goodDone := kept done item goodAll
        exact ⟨state done, (before (state done)).mpr ⟨goodDone, rfl⟩, (last _ goodDone).mpr ⟨goodAll, rfl⟩⟩

end

namespace WrittenType

def Resolves (type : WrittenType) : Prop := ∃ ty, type.resolve = .ok ty

def meaning (type : WrittenType) : Ty :=
  match type.resolve with
  | .ok ty => ty
  | .error _ => .void

theorem resolve_ok_iff (type : WrittenType) (ty : Ty) : type.resolve = .ok ty ↔ type.Resolves ∧ ty = type.meaning := by
  unfold Resolves meaning
  cases type.resolve <;> simp [eq_comm]

end WrittenType

namespace WrittenInstr

-- An instruction without a type gives nothing.
def meaning (instr : WrittenInstr) : Ty := instr.type.elim .void WrittenType.meaning

def Typed (instr : WrittenInstr) : Prop := ∀ type ∈ instr.type, type.Resolves

theorem type_of_ok_iff (instr : WrittenInstr) (ty : Ty) :
    Scope.typeOf instr = .ok ty ↔ instr.Typed ∧ ty = instr.meaning := by
  unfold Scope.typeOf Typed meaning
  cases instr.type with
  | none => simp [eq_comm]
  | some type => simpa using type.resolve_ok_iff ty

end WrittenInstr

theorem types_ok_iff (instrs : List WrittenInstr) (types : List Ty) :
    instrs.mapM Scope.typeOf = .ok types ↔
      (∀ instr ∈ instrs, instr.Typed) ∧ types = instrs.map WrittenInstr.meaning := by
  induction instrs generalizing types with
  | nil => simp [pure, Except.pure, eq_comm]
  | cons instr rest ih =>
      simp only [List.mapM_cons, bind_ok_iff, WrittenInstr.type_of_ok_iff, ih]
      simp only [pure, Except.pure, Except.ok.injEq, List.mem_cons, forall_eq_or_imp, List.map_cons]
      constructor
      · rintro ⟨_, ⟨typed, rfl⟩, _, ⟨others, rfl⟩, rfl⟩
        exact ⟨⟨typed, others⟩, rfl⟩
      · rintro ⟨⟨typed, others⟩, rfl⟩
        exact ⟨_, ⟨typed, rfl⟩, _, ⟨others, rfl⟩, rfl⟩

-- The instructions of blocks in source order, each with the id of its block.
def entries (blocks : List WrittenBlock) : List (BlockId × WrittenInstr) :=
  blocks.zipIdx.flatMap fun (block, id) => block.instrs.map fun instr => (id, instr)

theorem entries_append (blocks : List WrittenBlock) (block : WrittenBlock) :
    entries (blocks ++ [block]) = entries blocks ++ block.instrs.map fun instr => (blocks.length, instr) := by
  simp [entries, List.zipIdx_append]

theorem entries_instrs (blocks : List WrittenBlock) :
    (entries blocks).map Prod.snd = blocks.flatMap WrittenBlock.instrs := by
  induction blocks using List.reverseRecOn with
  | nil => rfl
  | append_singleton blocks block ih => simp [entries_append, ih, Function.comp_def]

theorem mem_entries (blocks : List WrittenBlock) (entry : BlockId × WrittenInstr) :
    entry ∈ entries blocks ↔ ∃ block, blocks[entry.1]? = some block ∧ entry.2 ∈ block.instrs := by
  simp only [entries, List.mem_flatMap, List.mem_map, Prod.exists, List.mem_zipIdx_iff_getElem?]
  constructor
  · rintro ⟨block, id, here, instr, listed, rfl⟩
    exact ⟨block, here, listed⟩
  · rintro ⟨block, here, listed⟩
    exact ⟨block, entry.1, here, entry.2, listed, rfl⟩

-- The name of each parameter and of each instruction that has one. Its place is its id.
def localNames (params : List WrittenParam) (instrs : List (BlockId × WrittenInstr)) : List (Option String) :=
  params.map (fun param => some param.name) ++ instrs.map fun entry => entry.2.result

def Apart (names : List (Option String)) : Prop := (names.filterMap id).Nodup

def named (names : List (Option String)) : List (String × ValueId) :=
  names.zipIdx.filterMap fun (name, id) => name.map fun name => (name, id)

theorem apart_append (names : List (Option String)) (name : Option String) :
    Apart (names ++ [name]) ↔ Apart names ∧ ∀ text ∈ name, some text ∉ names := by
  cases name with
  | none => simp [Apart]
  | some text => simp [Apart, List.nodup_append, imp_not_comm]

theorem mem_named (names : List (Option String)) (name : String) (id : ValueId) :
    (name, id) ∈ named names ↔ names[id]? = some (some name) := by
  simp only [named, List.mem_filterMap, Prod.exists, List.mem_zipIdx_iff_getElem?, Option.map_eq_some_iff]
  constructor
  · rintro ⟨_, _, here, _, rfl, same⟩
    obtain ⟨rfl, rfl⟩ := Prod.mk.inj same
    exact here
  · intro here
    exact ⟨some name, id, here, name, rfl, rfl⟩

theorem named_append (names : List (Option String)) (name : Option String) :
    named (names ++ [name]) = named names ++ (name.map fun name => (name, names.length)).toList := by
  cases name <;> simp [named, List.zipIdx_append]

theorem named_names (names : List (Option String)) : (named names).map Prod.fst = names.filterMap id := by
  induction names using List.reverseRecOn with
  | nil => rfl
  | append_singleton names name ih => cases name <;> simp [named_append, ih]

section

variable {κ ν : Type} [BEq κ] [LawfulBEq κ]

theorem lookup_known (pairs : List (κ × ν)) (key : κ) :
    (pairs.lookup key).isSome = true ↔ key ∈ pairs.map Prod.fst := by
  simp only [List.lookup_isSome_iff, beq_iff_eq, List.mem_map]
  exact exists_congr fun pair => and_congr_right fun _ => eq_comm

theorem lookup_iff_mem (pairs : List (κ × ν)) (once : (pairs.map Prod.fst).Nodup) (key : κ) (value : ν) :
    pairs.lookup key = some value ↔ (key, value) ∈ pairs := by
  induction pairs with
  | nil => simp
  | cons pair rest ih =>
      obtain ⟨first, here⟩ := pair
      rw [List.map_cons, List.nodup_cons] at once
      by_cases same : key = first
      · subst same
        have absent : (key, value) ∉ rest := fun member => once.1 (List.mem_map.mpr ⟨_, member, rfl⟩)
        simp [absent, eq_comm]
      · have other : (key == first) = false := by simpa using same
        rw [List.lookup_cons, other, List.mem_cons]
        simpa [same] using ih once.2

end

theorem local_iff (names : List (Option String)) (apart : Apart names) (name : String) (id : ValueId) :
    (named names).reverse.lookup name = some id ↔ names[id]? = some (some name) := by
  have once : ((named names).reverse.map Prod.fst).Nodup := by
    rw [List.map_reverse, List.nodup_reverse, named_names]
    exact apart
  rw [lookup_iff_mem _ once, List.mem_reverse, mem_named]

theorem local_known (names : List (Option String)) (name : String) :
    ((named names).reverse.lookup name).isSome = true ↔ some name ∈ names := by
  rw [lookup_known, List.map_reverse, List.mem_reverse, named_names]
  simp

theorem label_iff (labels : List String) (apart : labels.Nodup) (label : String) (id : BlockId) :
    labels.zipIdx.reverse.lookup label = some id ↔ labels[id]? = some label := by
  have once : (labels.zipIdx.reverse.map Prod.fst).Nodup := by
    rw [List.map_reverse, List.nodup_reverse, List.zipIdx_map_fst]
    exact apart
  rw [lookup_iff_mem _ once, List.mem_reverse, List.mem_zipIdx_iff_getElem?]

theorem label_known (labels : List String) (label : String) :
    (labels.zipIdx.reverse.lookup label).isSome = true ↔ label ∈ labels := by
  rw [lookup_known, List.map_reverse, List.mem_reverse, List.zipIdx_map_fst]

namespace Scope

-- What the first pass makes of some parameters, blocks and instructions.
def declaring (name : String) (params : List WrittenParam) (blocks : List WrittenBlock)
    (instrs : List (BlockId × WrittenInstr)) : Scope :=
  { func :=
      { name := name
        values := params.map (fun param => .argument param.name param.type.meaning) ++
          List.replicate instrs.length .pending
        blocks := blocks.mapIdx fun id block => ⟨id, block.label, weightOf block, [], [], []⟩
        constants := []
        globals := [] }
    locals := (named (localNames params instrs)).reverse
    labels := (blocks.map WrittenBlock.label).zipIdx.reverse
    declared := (instrs.zipIdx params.length).map fun (entry, id) => ⟨id, entry.1, entry.2.meaning, entry.2⟩ }

theorem bind_local_ok_iff (scope next : Scope) (name : String) (id : ValueId) :
    scope.bindLocal name id = .ok next ↔
      (scope.locals.lookup name).isSome = false ∧ next = { scope with locals := (name, id) :: scope.locals } := by
  unfold bindLocal
  cases (scope.locals.lookup name).isSome <;> simp [eq_comm]

theorem declare_param_ok_iff (name : String) (params : List WrittenParam) (param : WrittenParam) (next : Scope) :
    (declaring name params [] []).declareParam param = .ok next ↔
      (param.type.Resolves ∧ some param.name ∉ params.map fun param => some param.name) ∧
        next = declaring name (params ++ [param]) [] [] := by
  have known := local_known (params.map fun param => some param.name) param.name
  have row := named_append (params.map fun param => some param.name) (some param.name)
  have place : (params.map fun param => some param.name).length = params.length := List.length_map _
  rw [place] at row
  simp only [declareParam, bind_ok_iff, WrittenType.resolve_ok_iff, Func.addArgument, Func.addValue, bind_local_ok_iff]
  simp only [declaring, localNames, List.map_nil, List.append_nil, List.length_nil, List.replicate_zero,
    List.length_map, List.map_append, List.map_cons, row, List.zipIdx_nil] at known ⊢
  rw [← Bool.not_eq_true, known]
  constructor
  · rintro ⟨_, ⟨resolves, rfl⟩, fresh, rfl⟩
    exact ⟨⟨resolves, fresh⟩, by simp⟩
  · rintro ⟨⟨resolves, fresh⟩, rfl⟩
    exact ⟨_, ⟨resolves, rfl⟩, fresh, by simp⟩

theorem declaring_instr (name : String) (params : List WrittenParam) (blocks : List WrittenBlock)
    (instrs : List (BlockId × WrittenInstr)) (block : BlockId) (instr : WrittenInstr) :
    declaring name params blocks (instrs ++ [(block, instr)]) =
      let before := declaring name params blocks instrs
      { func := before.func.reserve.1
        locals := (instr.result.map fun text => (text, before.func.reserve.2)).toList ++ before.locals
        labels := before.labels
        declared := before.declared ++ [⟨before.func.reserve.2, block, instr.meaning, instr⟩] } := by
  have names : localNames params (instrs ++ [(block, instr)]) = localNames params instrs ++ [instr.result] := by
    simp [localNames]
  have count : (localNames params instrs).length = params.length + instrs.length := by simp [localNames]
  have row := named_append (localNames params instrs) instr.result
  rw [count] at row
  cases result : instr.result with
  | none =>
      rw [result] at names row
      simp [declaring, names, row, Func.reserve, Func.addValue, List.replicate_succ', List.zipIdx_append]
  | some text =>
      rw [result] at names row
      simp [declaring, names, row, Func.reserve, Func.addValue, List.replicate_succ', List.zipIdx_append]

theorem declare_instr_ok_iff (name : String) (params : List WrittenParam) (blocks : List WrittenBlock)
    (instrs : List (BlockId × WrittenInstr)) (block : BlockId) (instr : WrittenInstr) (next : Scope) :
    declareInstr block (declaring name params blocks instrs) (instr, instr.meaning) = .ok next ↔
      (∀ text ∈ instr.result, some text ∉ localNames params instrs) ∧
        next = declaring name params blocks (instrs ++ [(block, instr)]) := by
  rw [declaring_instr]
  unfold declareInstr
  cases instr.result with
  | none =>
      simp only [bind_ok_iff, pure, Except.pure, Except.ok.injEq, exists_eq_left']
      simp [eq_comm]
  | some text =>
      have known := local_known (localNames params instrs) text
      have fresh : ((declaring name params blocks instrs).locals.lookup text).isSome = false ↔
          some text ∉ localNames params instrs := by
        rw [← Bool.not_eq_true]
        exact not_congr known
      simp only [bind_ok_iff, bind_local_ok_iff, fresh, pure, Except.pure, Except.ok.injEq, Option.mem_def,
        Option.some.injEq, forall_eq']
      constructor
      · rintro ⟨_, ⟨new, rfl⟩, rfl⟩
        exact ⟨new, rfl⟩
      · rintro ⟨new, rfl⟩
        exact ⟨_, ⟨new, rfl⟩, rfl⟩

theorem declaring_block (name : String) (params : List WrittenParam) (blocks : List WrittenBlock)
    (instrs : List (BlockId × WrittenInstr)) (block : WrittenBlock) :
    declaring name params (blocks ++ [block]) instrs =
      let before := declaring name params blocks instrs
      { before with
        func := (before.func.addBlock block.label (weightOf block)).1
        labels := (block.label, (before.func.addBlock block.label (weightOf block)).2) :: before.labels } := by
  simp [declaring, Func.addBlock, List.zipIdx_append, List.mapIdx_append]

theorem declare_instrs_ok_iff (name : String) (params : List WrittenParam) (blocks : List WrittenBlock)
    (instrs : List (BlockId × WrittenInstr)) (apart : Apart (localNames params instrs)) (block : BlockId)
    (more : List WrittenInstr) (next : Scope) :
    (more.map fun instr => (instr, instr.meaning)).foldlM (declareInstr block) (declaring name params blocks instrs) =
        .ok next ↔
      Apart (localNames params (instrs ++ more.map fun instr => (block, instr))) ∧
        next = declaring name params blocks (instrs ++ more.map fun instr => (block, instr)) := by
  have names : ∀ done instr, localNames params (instrs ++ (done ++ [instr]).map fun instr => (block, instr)) =
      localNames params (instrs ++ done.map fun instr => (block, instr)) ++ [instr.result] := by
    intro done instr
    simp [localNames]
  rw [List.foldlM_map]
  have start : declaring name params blocks instrs =
      declaring name params blocks (instrs ++ ([] : List WrittenInstr).map fun instr => (block, instr)) := by simp
  rw [start]
  apply fold_ok_iff _ (fun done => declaring name params blocks (instrs ++ done.map fun instr => (block, instr)))
    fun done => Apart (localNames params (instrs ++ done.map fun instr => (block, instr)))
  · simpa using apart
  · intro done instr good
    rw [names, apart_append] at good
    exact good.1
  · intro done instr _ next good
    rw [names, apart_append, declare_instr_ok_iff]
    simp [good]

-- Whether the first pass gets through some blocks.
structure Declarable (params : List WrittenParam) (blocks : List WrittenBlock) : Prop where
  typed : ∀ entry ∈ entries blocks, entry.2.Typed
  names : Apart (localNames params (entries blocks))
  labels : (blocks.map WrittenBlock.label).Nodup

theorem declarable_append (params : List WrittenParam) (blocks : List WrittenBlock) (block : WrittenBlock) :
    Declarable params (blocks ++ [block]) ↔ Declarable params blocks ∧ (∀ instr ∈ block.instrs, instr.Typed) ∧
      block.label ∉ blocks.map WrittenBlock.label ∧ Apart (localNames params (entries (blocks ++ [block]))) := by
  have names : localNames params (entries (blocks ++ [block])) =
      localNames params (entries blocks) ++ block.instrs.map WrittenInstr.result := by
    simp [localNames, entries_append]
  have labels : ((blocks ++ [block]).map WrittenBlock.label).Nodup ↔
      block.label ∉ blocks.map WrittenBlock.label ∧ (blocks.map WrittenBlock.label).Nodup := by
    rw [List.map_append, List.map_singleton, List.nodup_append_comm, List.singleton_append, List.nodup_cons]
  constructor
  · intro all
    have apart := all.names
    rw [names, Apart, List.filterMap_append] at apart
    refine ⟨⟨?_, apart.of_append_left, (labels.mp all.labels).2⟩, ?_, (labels.mp all.labels).1, all.names⟩
    · intro entry member
      exact all.typed entry (entries_append blocks block ▸ List.mem_append_left _ member)
    · intro instr member
      refine all.typed (blocks.length, instr) ?_
      rw [entries_append]
      exact List.mem_append_right _ (List.mem_map_of_mem member)
  · rintro ⟨before, typed, fresh, apart⟩
    refine ⟨?_, apart, labels.mpr ⟨fresh, before.labels⟩⟩
    intro entry member
    rw [entries_append] at member
    rcases List.mem_append.mp member with old | new
    · exact before.typed entry old
    · obtain ⟨instr, listed, rfl⟩ := List.mem_map.mp new
      exact typed instr listed

theorem declare_block_ok_iff (name : String) (params : List WrittenParam) (blocks : List WrittenBlock)
    (block : WrittenBlock) (next : Scope) (good : Declarable params blocks) :
    (declaring name params blocks (entries blocks)).declareBlock block = .ok next ↔
      Declarable params (blocks ++ [block]) ∧
        next = declaring name params (blocks ++ [block]) (entries (blocks ++ [block])) := by
  have known : ((declaring name params blocks (entries blocks)).labels.lookup block.label).isSome = true ↔
      block.label ∈ blocks.map WrittenBlock.label := label_known (blocks.map WrittenBlock.label) block.label
  have pairs : block.instrs.zip (block.instrs.map WrittenInstr.meaning) =
      block.instrs.map fun instr => (instr, instr.meaning) := List.map_prod_left_eq_zip.symm
  have instrs := declare_instrs_ok_iff name params (blocks ++ [block]) (entries blocks) good.names blocks.length
    block.instrs next
  have position : ((declaring name params blocks (entries blocks)).func.addBlock block.label (weightOf block)).2 =
      blocks.length := List.length_mapIdx
  rw [declaring_block, ← entries_append] at instrs
  dsimp only at instrs
  rw [position] at instrs
  rw [declarable_append]
  unfold declareBlock
  simp only [bind_ok_iff, types_ok_iff]
  constructor
  · rintro ⟨_, ⟨typed, rfl⟩, ran⟩
    rw [pairs, position] at ran
    by_cases repeated : block.label ∈ blocks.map WrittenBlock.label
    · rw [if_pos (known.mpr repeated)] at ran
      cases ran
    · rw [if_neg (mt known.mp repeated)] at ran
      obtain ⟨names, rfl⟩ := instrs.mp ran
      exact ⟨⟨good, typed, repeated, names⟩, rfl⟩
  · rintro ⟨⟨_, typed, fresh, names⟩, rfl⟩
    refine ⟨_, ⟨typed, rfl⟩, ?_⟩
    rw [pairs, position, if_neg (mt known.mp fresh)]
    exact instrs.mpr ⟨names, rfl⟩

theorem declare_params_ok_iff (name : String) (params : List WrittenParam) (next : Scope) :
    params.foldlM declareParam (new name) = .ok next ↔
      ((∀ param ∈ params, param.type.Resolves) ∧ Apart (params.map fun param => some param.name)) ∧
        next = declaring name params [] [] := by
  apply fold_ok_iff _ (fun done => declaring name done [] []) fun done =>
    (∀ param ∈ done, param.type.Resolves) ∧ Apart (done.map fun param => some param.name)
  · simp [Apart]
  · intro done param good
    rw [List.map_append, List.map_singleton, apart_append] at good
    exact ⟨fun other member => good.1 other (List.mem_append_left _ member), good.2.1⟩
  · intro done param _ next good
    rw [declare_param_ok_iff, List.map_append, List.map_singleton, apart_append]
    have typed : (∀ other ∈ done ++ [param], other.type.Resolves) ↔ param.type.Resolves := by
      simpa [or_imp, forall_and] using fun _ => good.1
    rw [typed]
    simp [good.2]

-- Whether a whole function gets through the first pass.
theorem declare_ok_iff (written : WrittenFunction) (scope : Scope) :
    declare written = .ok scope ↔
      ((∀ param ∈ written.params, param.type.Resolves) ∧ Declarable written.params written.blocks) ∧
        scope = declaring written.name written.params written.blocks (entries written.blocks) := by
  unfold declare
  simp only [bind_ok_iff, declare_params_ok_iff]
  have blocks : ∀ names : Apart (written.params.map fun param => some param.name),
      written.blocks.foldlM declareBlock (declaring written.name written.params [] []) = .ok scope ↔
        Declarable written.params written.blocks ∧
          scope = declaring written.name written.params written.blocks (entries written.blocks) := by
    intro names
    apply fold_ok_iff _ (fun done => declaring written.name written.params done (entries done))
      fun done => Declarable written.params done
    · refine ⟨by simp [entries], ?_, List.nodup_nil⟩
      simpa [localNames, entries] using names
    · exact fun done block good => ((declarable_append written.params done block).mp good).1
    · exact fun done block _ next good => declare_block_ok_iff written.name written.params done block next good
  constructor
  · rintro ⟨_, ⟨⟨typed, names⟩, rfl⟩, ran⟩
    obtain ⟨declarable, rfl⟩ := (blocks names).mp ran
    exact ⟨⟨typed, declarable⟩, rfl⟩
  · rintro ⟨⟨typed, declarable⟩, rfl⟩
    have names := declarable.names
    rw [localNames, Apart, List.filterMap_append] at names
    exact ⟨_, ⟨⟨typed, names.of_append_left⟩, rfl⟩, (blocks names.of_append_left).mpr ⟨declarable, rfl⟩⟩

end Scope

end LoopDeps.Text
