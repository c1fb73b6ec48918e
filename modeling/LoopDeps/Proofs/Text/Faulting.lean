import LoopDeps.Proofs.Text.Resolving
set_option autoImplicit false

/- What is wrong with a written function that cannot be resolved. A reference is looked up against all names of the
   function, wherever they are defined, so the first one that leads nowhere does not depend on how far the pass has come. -/
namespace LoopDeps.Text

section

variable {ε α β σ : Type}

theorem bind_error_iff (first : Except ε α) (rest : α → Except ε β) (error : ε) :
    first >>= rest = .error error ↔ first = .error error ∨ ∃ value, first = .ok value ∧ rest value = .error error := by
  cases first <;> simp [bind, Except.bind]

-- A loop that fails has come up to the item that fails it.
theorem fold_stops (step : σ → α → Except ε σ) (items : List α) (start : σ) (error : ε)
    (failed : items.foldlM step start = .error error) :
    ∃ done item rest middle, items = done ++ item :: rest ∧ done.foldlM step start = .ok middle ∧
      step middle item = .error error := by
  induction items generalizing start with
  | nil => cases failed
  | cons item rest ih =>
      rw [List.foldlM_cons, bind_error_iff] at failed
      rcases failed with here | ⟨next, ran, later⟩
      · exact ⟨[], item, rest, start, rfl, rfl, here⟩
      · obtain ⟨done, other, behind, middle, rfl, reached, stopped⟩ := ih next later
        refine ⟨item :: done, other, behind, middle, rfl, ?_, stopped⟩
        rw [List.foldlM_cons, ran]
        exact reached

-- If what is wrong with an item does not depend on the state, a loop fails with the first fault.
theorem fold_error_iff (step : σ → α → Except ε σ) (fault : α → Option ε)
    (each : ∀ state item error, step state item = .error error ↔ fault item = some error) (items : List α) (start : σ)
    (error : ε) : items.foldlM step start = .error error ↔ items.findSome? fault = some error := by
  induction items generalizing start with
  | nil => simp [pure, Except.pure]
  | cons item rest ih =>
      rw [List.foldlM_cons, List.findSome?_cons, bind_error_iff, each]
      cases here : fault item with
      | some other =>
          have failed := (each start item other).mpr here
          simp [failed]
      | none =>
          cases ran : step start item with
          | error other => exact absurd ((each start item other).mp ran) (by simp [here])
          | ok next => simp [ih next]

theorem map_stops (f : α → Except ε β) (items : List α) (error : ε) (failed : items.mapM f = .error error) :
    ∃ item ∈ items, f item = .error error := by
  induction items with
  | nil => cases failed
  | cons item rest ih =>
      rw [List.mapM_cons, bind_error_iff] at failed
      rcases failed with here | ⟨_, _, later⟩
      · exact ⟨item, List.mem_cons_self, here⟩
      · rcases (bind_error_iff _ _ _).mp later with there | ⟨_, _, noError⟩
        · obtain ⟨other, member, stopped⟩ := ih there
          exact ⟨other, List.mem_cons_of_mem _ member, stopped⟩
        · cases noError

end

-- An unsigned decimal below 2 ^ 32.
def FitsWord (text : String) : Prop :=
  text.toList ≠ [] ∧ (∀ c ∈ text.toList, c.isDigit = true) ∧ Nat.ofDigitChars 10 text.toList 0 < Nat.pow 2 32

theorem word_none_iff (text : String) : Decimal.word? text.toList = none ↔ ¬ FitsWord text := by
  unfold Decimal.word? Decimal.digitsValue FitsWord
  split
  · rename_i wrong
    have unfit : text.toList = [] ∨ ∃ c ∈ text.toList, c.isDigit = false := by simpa using wrong
    rcases unfit with empty | ⟨c, member, other⟩
    · simp [empty]
    · exact iff_of_true rfl fun fits => Bool.false_ne_true (other.symm.trans (fits.2.1 c member))
  · rename_i right
    have digits : text.toList ≠ [] ∧ ∀ c ∈ text.toList, c.isDigit = true := by simpa using right
    split
    · rename_i small
      exact iff_of_false nofun fun unfit => unfit ⟨digits.1, digits.2, small⟩
    · rename_i large
      exact iff_of_true rfl fun fits => large fits.2.2

theorem word_fits (text : String) (n : Nat) (read : Decimal.word? text.toList = some n) : FitsWord text := by
  by_contra unfit
  rw [(word_none_iff text).mpr unfit] at read
  cases read

namespace WrittenType

def widths : WrittenType → List String
  | .int bits => [bits]
  | .vector _ element => element.widths
  | _ => []

def lengths : WrittenType → List String
  | .vector length element => length :: element.lengths
  | _ => []

def Fits (type : WrittenType) : Prop :=
  (∀ text ∈ type.widths, FitsWord text) ∧ ∀ text ∈ type.lengths, FitsWord text

-- The number that an error tells of is one of the type and does not fit.
inductive Blames (type : WrittenType) : ParseError → Prop where
  | width (text : String) (used : text ∈ type.widths) (unfit : ¬ FitsWord text) : Blames type (.badType ("i" ++ text))
  | length (text : String) (used : text ∈ type.lengths) (unfit : ¬ FitsWord text) : Blames type (.badNumber text)

theorem resolve_blames (type : WrittenType) (error : ParseError) (failed : type.resolve = .error error) :
    type.Blames error := by
  induction type with
  | int bits =>
      rw [resolve] at failed
      cases width : Decimal.word? bits.toList with
      | some n =>
          rw [width] at failed
          cases failed
      | none =>
          rw [width] at failed
          cases failed
          exact .width bits List.mem_cons_self ((word_none_iff bits).mp width)
  | vector length element ih =>
      rw [resolve] at failed
      cases count : Decimal.word? length.toList with
      | some n =>
          rw [count] at failed
          cases inner : element.resolve with
          | ok type =>
              rw [inner] at failed
              cases failed
          | error other =>
              rw [inner] at failed
              cases failed
              cases ih inner with
              | width text used unfit => exact .width text used unfit
              | length text used unfit => exact .length text (List.mem_cons_of_mem _ used) unfit
      | none =>
          rw [count] at failed
          cases failed
          exact .length length List.mem_cons_self ((word_none_iff length).mp count)
  | _ => cases failed

theorem resolves_iff (type : WrittenType) : type.Resolves ↔ type.Fits := by
  constructor
  · intro resolves
    induction type with
    | int bits =>
        obtain ⟨ty, resolved⟩ := resolves
        rw [resolve] at resolved
        cases width : Decimal.word? bits.toList with
        | none =>
            rw [width] at resolved
            cases resolved
        | some n => exact ⟨List.forall_mem_singleton.mpr (word_fits bits n width), nofun⟩
    | vector length element ih =>
        obtain ⟨ty, resolved⟩ := resolves
        rw [resolve] at resolved
        cases count : Decimal.word? length.toList with
        | none =>
            rw [count] at resolved
            cases resolved
        | some n =>
            have inner : element.Resolves := by
              rw [count] at resolved
              cases inner : element.resolve with
              | ok type => exact ⟨type, inner⟩
              | error other =>
                  rw [inner] at resolved
                  cases resolved
            obtain ⟨widths, lengths⟩ := ih inner
            exact ⟨widths, List.forall_mem_cons.mpr ⟨word_fits length n count, lengths⟩⟩
    | _ => exact ⟨nofun, nofun⟩
  · intro fits
    cases result : type.resolve with
    | ok ty => exact ⟨ty, result⟩
    | error error =>
        cases type.resolve_blames error result with
        | width text used unfit => exact absurd (fits.1 text used) unfit
        | length text used unfit => exact absurd (fits.2 text used) unfit

end WrittenType

-- A value or a block that an operand names.
inductive Reference where
  | value (name : String)
  | block (label : String)

def WrittenValue.reference? : WrittenValue → Option Reference
  | .name text => some (.value text)
  | _ => none

-- The block that a phi's value comes from is not looked up.
def WrittenOperand.reference? : WrittenOperand → Option Reference
  | .value written => written.reference?
  | .incoming written _ => written.reference?
  | .label text => some (.block text)

namespace Reference

def error : Reference → ParseError
  | .value name => .undefinedValue name
  | .block label => .undefinedBlock label

def Leads (names labels : List String) : Reference → Prop
  | .value name => name ∈ names
  | .block label => label ∈ labels

instance (names labels : List String) : (reference : Reference) → Decidable (reference.Leads names labels)
  | .value name => inferInstanceAs (Decidable (name ∈ names))
  | .block label => inferInstanceAs (Decidable (label ∈ labels))

end Reference

namespace WrittenFunction

def types (written : WrittenFunction) : List WrittenType :=
  written.params.map WrittenParam.type ++ written.blocks.flatMap fun block => block.instrs.filterMap WrittenInstr.type

-- The names of parameters and results.
def names (written : WrittenFunction) : List String :=
  written.params.map WrittenParam.name ++ written.blocks.flatMap fun block => block.instrs.filterMap WrittenInstr.result

def labels (written : WrittenFunction) : List String := written.blocks.map WrittenBlock.label

-- The references of all operands, in source order.
def references (written : WrittenFunction) : List Reference :=
  written.blocks.flatMap fun block => block.instrs.flatMap fun instr => instr.operands.filterMap WrittenOperand.reference?

structure WellDeclared (written : WrittenFunction) : Prop where
  fits : ∀ type ∈ written.types, type.Fits
  names : written.names.Nodup
  labels : written.labels.Nodup

def Leads (written : WrittenFunction) (reference : Reference) : Prop := reference.Leads written.names written.labels

structure Sound (written : WrittenFunction) : Prop extends WellDeclared written where
  leads : ∀ reference ∈ written.references, written.Leads reference

-- What an error tells of a function holds of it.
inductive Blames (written : WrittenFunction) : ParseError → Prop where
  | type (type : WrittenType) (used : type ∈ written.types) (error : ParseError) (blames : type.Blames error) :
      Blames written error
  | name (name : String) (twice : 1 < written.names.count name) : Blames written (.repeatedName name)
  | block (label : String) (twice : 1 < written.labels.count label) : Blames written (.repeatedBlock label)
  | reference (reference : Reference) (used : reference ∈ written.references) (lost : ¬ written.Leads reference) :
      Blames written reference.error

theorem blames_no_mismatch (written : WrittenFunction) (found : Mismatch) : ¬ written.Blames (.mismatch found) := by
  intro blames
  generalize same : ParseError.mismatch found = error at blames
  cases blames with
  | type type used _ wrong =>
      subst same
      cases wrong
  | reference reference _ _ => cases reference <;> cases same
  | _ => cases same

theorem names_eq (written : WrittenFunction) :
    written.names = (localNames written.params (entries written.blocks)).filterMap id := by
  have results : (entries written.blocks).filterMap (fun entry => entry.2.result) =
      written.blocks.flatMap fun block => block.instrs.filterMap WrittenInstr.result := by
    rw [← List.filterMap_flatMap, ← entries_instrs, List.filterMap_map]
    rfl
  rw [localNames, List.filterMap_append, List.filterMap_map, List.filterMap_map, names, ← results]
  simp

theorem local_known_iff (written : WrittenFunction) (name : String) :
    (written.scope.locals.lookup name).isSome = true ↔ name ∈ written.names := by
  rw [names_eq, List.mem_filterMap]
  have known := local_known (localNames written.params (entries written.blocks)) name
  simpa [scope, Scope.declaring] using known

theorem label_known_iff (written : WrittenFunction) (label : String) :
    (written.scope.labels.lookup label).isSome = true ↔ label ∈ written.labels :=
  label_known (written.blocks.map WrittenBlock.label) label

theorem types_fit_iff (written : WrittenFunction) : (∀ type ∈ written.types, type.Fits) ↔
    (∀ param ∈ written.params, param.type.Resolves) ∧ ∀ entry ∈ entries written.blocks, entry.2.Typed := by
  have instrs : (∀ entry ∈ entries written.blocks, entry.2.Typed) ↔
      ∀ block ∈ written.blocks, ∀ instr ∈ block.instrs, instr.Typed := by
    rw [← List.forall_mem_flatMap, ← entries_instrs, List.forall_mem_map]
  rw [instrs]
  simp only [types, List.forall_mem_append, List.forall_mem_map, List.mem_flatMap, List.mem_filterMap,
    WrittenType.resolves_iff, WrittenInstr.Typed, Option.mem_def]
  refine and_congr_right fun _ => ⟨?_, ?_⟩
  · intro all block inside instr listed type here
    exact all type ⟨block, inside, instr, listed, here⟩
  · rintro all type ⟨block, inside, instr, listed, here⟩
    exact all block inside instr listed type here

theorem well_declared_iff (written : WrittenFunction) : written.WellDeclared ↔
    (∀ param ∈ written.params, param.type.Resolves) ∧ Scope.Declarable written.params written.blocks := by
  have names : written.names.Nodup ↔ Apart (localNames written.params (entries written.blocks)) := by
    rw [names_eq, Apart]
  constructor
  · intro good
    obtain ⟨params, typed⟩ := written.types_fit_iff.mp good.fits
    exact ⟨params, typed, names.mp good.names, good.labels⟩
  · rintro ⟨params, declarable⟩
    exact ⟨written.types_fit_iff.mpr ⟨params, declarable.typed⟩, names.mpr declarable.names, declarable.labels⟩

-- What is wrong with a reference, if anything is.
def fault (written : WrittenFunction) (reference : Reference) : Option ParseError :=
  if reference.Leads written.names written.labels then none else some reference.error

theorem add_value_error_iff (written : WrittenFunction) (found : Operands) (value : WrittenValue) (error : ParseError) :
    found.addValue written.scope value = .error error ↔ value.reference?.bind written.fault = some error := by
  cases value with
  | name text =>
      have known := written.local_known_iff text
      simp only [Operands.addValue, WrittenValue.reference?, Option.bind_some, fault, Reference.Leads, Reference.error]
      cases here : written.scope.locals.lookup text with
      | none =>
          have lost : text ∉ written.names := fun member => by simp [here] at known; exact known member
          simp [lost]
      | some id =>
          have member : text ∈ written.names := known.mp (by rw [here]; rfl)
          simp [member]
  | _ => simp [Operands.addValue, WrittenValue.reference?]

theorem add_error_iff (written : WrittenFunction) (found : Operands) (operand : WrittenOperand) (error : ParseError) :
    found.add written.scope operand = .error error ↔ operand.reference?.bind written.fault = some error := by
  cases operand with
  | value value => exact written.add_value_error_iff found value error
  | incoming value block => exact written.add_value_error_iff found value error
  | label label =>
      have known := written.label_known_iff label
      simp only [Operands.add, WrittenOperand.reference?, Option.bind_some, fault, Reference.Leads, Reference.error]
      cases here : written.scope.labels.lookup label with
      | none =>
          have lost : label ∉ written.labels := fun member => by simp [here] at known; exact known member
          simp [lost]
      | some id =>
          have member : label ∈ written.labels := known.mp (by rw [here]; rfl)
          simp [member]

theorem define_error_iff (written : WrittenFunction) (func : Func) (declared : Declared) (error : ParseError) :
    written.scope.defineInstr func declared = .error error ↔
      (declared.written.operands.filterMap WrittenOperand.reference?).findSome? written.fault = some error := by
  have row : (declared.written.operands.filterMap WrittenOperand.reference?).findSome? written.fault =
      declared.written.operands.findSome? fun operand => operand.reference?.bind written.fault := by
    rw [← List.head?_filterMap, List.filterMap_filterMap, List.head?_filterMap]
  rw [row, ← fold_error_iff _ _ written.add_error_iff _ ⟨func, [], []⟩, Scope.defineInstr, bind_error_iff]
  simp [pure, Except.pure]

-- The second pass fails with the first reference that leads nowhere.
theorem define_all_error_iff (written : WrittenFunction) (func : Func) (error : ParseError) :
    written.scope.declared.foldlM written.scope.defineInstr func = .error error ↔
      written.references.findSome? written.fault = some error := by
  have instrs : written.scope.declared.map Declared.written = written.blocks.flatMap WrittenBlock.instrs := by
    rw [← entries_instrs, scope_declared, List.map_map,
      ← List.zipIdx_map_fst written.params.length (entries written.blocks),
      List.map_map, List.zipIdx_map_fst]
    rfl
  have row : written.references.findSome? written.fault = written.scope.declared.findSome? fun declared =>
      (declared.written.operands.filterMap WrittenOperand.reference?).findSome? written.fault := by
    have flat : written.references =
        (written.blocks.flatMap WrittenBlock.instrs).flatMap fun instr => instr.operands.filterMap WrittenOperand.reference? :=
      List.flatMap_assoc.symm
    rw [flat, ← instrs, List.flatMap_map, ← List.head?_filterMap, List.filterMap_flatMap, List.head?_flatMap]
    simp only [List.head?_filterMap]
  rw [row]
  exact fold_error_iff _ _ written.define_error_iff _ func error

end WrittenFunction

namespace Scope

theorem bind_local_error (scope : Scope) (name : String) (id : ValueId) (error : ParseError)
    (failed : scope.bindLocal name id = .error error) :
    (scope.locals.lookup name).isSome = true ∧ error = .repeatedName name := by
  rw [bindLocal] at failed
  split at failed
  · rename_i found
    cases failed
    exact ⟨found, rfl⟩
  · cases failed

theorem param_error (name : String) (params : List WrittenParam) (param : WrittenParam) (error : ParseError)
    (failed : (declaring name params [] []).declareParam param = .error error) :
    param.type.resolve = .error error ∨
      error = .repeatedName param.name ∧ param.name ∈ params.map WrittenParam.name := by
  rcases (bind_error_iff _ _ _).mp failed with here | ⟨type, _, later⟩
  · exact .inl here
  · obtain ⟨known, rfl⟩ := bind_local_error _ _ _ _ later
    have member := (local_known (localNames params []) param.name).mp known
    exact .inr ⟨rfl, by simpa [localNames] using member⟩

theorem instr_error (name : String) (params : List WrittenParam) (blocks : List WrittenBlock)
    (instrs : List (BlockId × WrittenInstr)) (block : BlockId) (instr : WrittenInstr × Ty) (error : ParseError)
    (failed : declareInstr block (declaring name params blocks instrs) instr = .error error) :
    ∃ text, instr.1.result = some text ∧ some text ∈ localNames params instrs ∧ error = .repeatedName text := by
  unfold declareInstr at failed
  cases result : instr.1.result with
  | none =>
      rw [result] at failed
      cases failed
  | some text =>
      rw [result] at failed
      rcases (bind_error_iff _ _ _).mp failed with here | ⟨_, _, noError⟩
      · obtain ⟨known, rfl⟩ := bind_local_error _ _ _ _ here
        exact ⟨text, rfl, (local_known (localNames params instrs) text).mp known, rfl⟩
      · cases noError

theorem block_error (name : String) (params : List WrittenParam) (blocks : List WrittenBlock) (block : WrittenBlock)
    (error : ParseError) (good : Declarable params blocks)
    (failed : (declaring name params blocks (entries blocks)).declareBlock block = .error error) :
    (∃ instr ∈ block.instrs, typeOf instr = .error error) ∨
      (error = .repeatedBlock block.label ∧ block.label ∈ blocks.map WrittenBlock.label) ∨
      ∃ earlier instr later text, block.instrs = earlier ++ instr :: later ∧ instr.result = some text ∧
        some text ∈ localNames params (entries blocks ++ earlier.map fun instr => (blocks.length, instr)) ∧
        error = .repeatedName text := by
  have known : ((declaring name params blocks (entries blocks)).labels.lookup block.label).isSome = true ↔
      block.label ∈ blocks.map WrittenBlock.label := label_known (blocks.map WrittenBlock.label) block.label
  have position : ((declaring name params blocks (entries blocks)).func.addBlock block.label (weightOf block)).2 =
      blocks.length := List.length_mapIdx
  unfold declareBlock at failed
  rcases (bind_error_iff _ _ _).mp failed with untyped | ⟨types, typed, later⟩
  · exact .inl (map_stops typeOf block.instrs error untyped)
  · by_cases repeated : block.label ∈ blocks.map WrittenBlock.label
    · rw [if_pos (known.mpr repeated)] at later
      cases later
      exact .inr (.inl ⟨rfl, repeated⟩)
    · obtain ⟨_, rfl⟩ := (types_ok_iff block.instrs types).mp typed
      rw [if_neg (mt known.mp repeated), ← List.map_prod_left_eq_zip] at later
      dsimp only at later
      rw [position] at later
      obtain ⟨done, pair, rest, middle, split, ran, stopped⟩ := fold_stops _ _ _ _ later
      obtain ⟨earlier, others, instrs, rfl, behind⟩ := List.map_eq_append_iff.mp split
      obtain ⟨instr, more, rfl, rfl, _⟩ := List.map_eq_cons_iff.mp behind
      have reached := declare_instrs_ok_iff name params (blocks ++ [block]) (entries blocks) good.names blocks.length earlier
        middle
      rw [declaring_block] at reached
      dsimp only at reached
      rw [position] at reached
      obtain ⟨_, rfl⟩ := reached.mp ran
      obtain ⟨text, result, taken, same⟩ := instr_error _ _ _ _ _ _ _ stopped
      exact .inr (.inr ⟨earlier, instr, more, text, instrs, result, taken, same⟩)

end Scope

namespace WrittenFunction

theorem twice_of_split (front behind : List String) (name : String) (member : name ∈ front) :
    1 < (front ++ name :: behind).count name := by
  have once := List.count_pos_iff.mpr member
  rw [List.count_append, List.count_cons_self]
  omega

theorem entries_prefix (done rest : List WrittenBlock) (block : WrittenBlock) :
    ∃ more, entries (done ++ block :: rest) =
      entries done ++ block.instrs.map (fun instr => (done.length, instr)) ++ more := by
  refine ⟨(rest.zipIdx (done.length + 1)).flatMap fun item => item.1.instrs.map fun instr => (item.2, instr), ?_⟩
  simp [entries, List.zipIdx_append, List.zipIdx_cons]

theorem params_blame (written : WrittenFunction) (error : ParseError)
    (failed : written.params.foldlM Scope.declareParam (.new written.name) = .error error) : written.Blames error := by
  obtain ⟨done, param, rest, middle, split, ran, stopped⟩ := fold_stops _ _ _ _ failed
  obtain ⟨_, rfl⟩ := (Scope.declare_params_ok_iff written.name done middle).mp ran
  rcases Scope.param_error written.name done param error stopped with untyped | ⟨rfl, repeated⟩
  · have used : param.type ∈ written.types := by
      rw [types, split]
      simp
    exact .type param.type used error (param.type.resolve_blames error untyped)
  · refine .name param.name ?_
    rw [names, split, List.map_append, List.map_cons, List.append_assoc, List.cons_append]
    exact twice_of_split _ _ _ repeated

theorem blocks_blame (written : WrittenFunction) (error : ParseError)
    (params : ∀ param ∈ written.params, param.type.Resolves)
    (apart : Apart (written.params.map fun param => some param.name))
    (failed : written.blocks.foldlM Scope.declareBlock (.declaring written.name written.params [] []) = .error error) :
    written.Blames error := by
  obtain ⟨done, block, rest, middle, split, ran, stopped⟩ := fold_stops _ _ _ _ failed
  have reached : Scope.declare { written with blocks := done } = .ok middle :=
    (bind_ok_iff _ _ _).mpr ⟨_, (Scope.declare_params_ok_iff _ _ _).mpr ⟨⟨params, apart⟩, rfl⟩, ran⟩
  obtain ⟨⟨_, good⟩, rfl⟩ := (Scope.declare_ok_iff _ _).mp reached
  rcases Scope.block_error written.name written.params done block error good stopped with
    ⟨instr, listed, untyped⟩ | ⟨rfl, repeated⟩ | ⟨earlier, instr, later, text, instrs, result, taken, rfl⟩
  · rw [Scope.typeOf] at untyped
    cases here : instr.type with
    | none =>
        rw [here] at untyped
        cases untyped
    | some type =>
        rw [here] at untyped
        have used : type ∈ written.types := by
          refine List.mem_append_right _ (List.mem_flatMap.mpr ⟨block, by simp [split], ?_⟩)
          exact List.mem_filterMap.mpr ⟨instr, listed, here⟩
        exact .type type used error (type.resolve_blames error untyped)
  · refine .block block.label ?_
    rw [labels, split, List.map_append, List.map_cons]
    exact twice_of_split _ _ _ repeated
  · obtain ⟨more, whole⟩ := entries_prefix done rest block
    have front : text ∈ (localNames written.params
        (entries done ++ earlier.map fun instr => (done.length, instr))).filterMap id :=
      List.mem_filterMap.mpr ⟨some text, taken, rfl⟩
    have row : written.names =
        (localNames written.params (entries done ++ earlier.map fun instr => (done.length, instr))).filterMap id ++
          text :: (later.map WrittenInstr.result ++ more.map fun entry => entry.2.result).filterMap id := by
      rw [names_eq, split, whole, instrs]
      simp [localNames, result, Function.comp_def]
    refine .name text ?_
    rw [row]
    exact twice_of_split _ _ _ front

theorem declare_blames (written : WrittenFunction) (error : ParseError) (failed : Scope.declare written = .error error) :
    written.Blames error := by
  rcases (bind_error_iff _ _ _).mp failed with here | ⟨middle, ran, later⟩
  · exact written.params_blame error here
  · obtain ⟨⟨params, apart⟩, rfl⟩ := (Scope.declare_params_ok_iff _ _ _).mp ran
    exact written.blocks_blame error params apart later

theorem fault_eq_some_iff (written : WrittenFunction) (reference : Reference) (error : ParseError) :
    written.fault reference = some error ↔ ¬ written.Leads reference ∧ error = reference.error := by
  rw [fault, Leads]
  split
  · rename_i leads
    exact iff_of_false nofun fun told => told.1 leads
  · rename_i lost
    simp [lost, eq_comm]

-- The first reference that leads nowhere, when there is one.
theorem first_fault_iff (written : WrittenFunction) (error : ParseError) :
    written.references.findSome? written.fault = some error ↔
      ∃ earlier reference later, written.references = earlier ++ reference :: later ∧
        (∀ other ∈ earlier, written.Leads other) ∧ ¬ written.Leads reference ∧ error = reference.error := by
  have clean : ∀ reference, written.fault reference = none ↔ written.Leads reference := by
    intro reference
    rw [fault, Leads]
    split <;> simp [*]
  rw [List.findSome?_eq_some_iff]
  refine exists_congr fun earlier => exists_congr fun reference => exists_congr fun later => and_congr_right fun _ => ?_
  rw [fault_eq_some_iff, and_comm]
  exact and_congr_left' (forall₂_congr fun other _ => clean other)

theorem declare_ok (written : WrittenFunction) (good : written.WellDeclared) :
    Scope.declare written = .ok written.scope := by
  obtain ⟨params, declarable⟩ := written.well_declared_iff.mp good
  exact (Scope.declare_ok_iff written _).mpr ⟨⟨params, declarable⟩, rfl⟩

theorem resolve_error_iff (written : WrittenFunction) (good : written.WellDeclared) (error : ParseError) :
    written.resolve = .error error ↔
      ∃ earlier reference later, written.references = earlier ++ reference :: later ∧
        (∀ other ∈ earlier, written.Leads other) ∧ ¬ written.Leads reference ∧ error = reference.error := by
  rw [← first_fault_iff, ← written.define_all_error_iff written.scope.func, resolve, bind_error_iff,
    declare_ok written good]
  simp [bind_error_iff, pure, Except.pure]

-- Whatever cannot be resolved is at fault as the error tells.
theorem resolve_blames (written : WrittenFunction) (error : ParseError) (failed : written.resolve = .error error) :
    written.Blames error := by
  cases declared : Scope.declare written with
  | error other =>
      rw [resolve, declared] at failed
      cases failed
      exact written.declare_blames error declared
  | ok scope =>
      obtain ⟨⟨params, declarable⟩, _⟩ := (Scope.declare_ok_iff written scope).mp declared
      have good := written.well_declared_iff.mpr ⟨params, declarable⟩
      obtain ⟨earlier, reference, later, row, _, lost, rfl⟩ := (written.resolve_error_iff good error).mp failed
      exact .reference reference (by simp [row]) lost

theorem sound_iff (written : WrittenFunction) : written.Sound ↔ ∃ func, written.resolve = .ok func := by
  constructor
  · intro sound
    cases resolved : written.resolve with
    | ok func => exact ⟨func, rfl⟩
    | error error =>
        obtain ⟨_, reference, _, row, _, lost, _⟩ := (written.resolve_error_iff sound.toWellDeclared error).mp resolved
        exact absurd (sound.leads reference (by simp [row])) lost
  · rintro ⟨func, resolved⟩
    have good : written.WellDeclared := by
      obtain ⟨resolvable, _⟩ := (written.resolve_ok_iff func).mp resolved
      exact written.well_declared_iff.mpr ⟨resolvable.params, resolvable.declarable⟩
    refine ⟨good, fun reference used => ?_⟩
    by_contra lost
    have faulted := (written.fault_eq_some_iff reference reference.error).mpr ⟨lost, rfl⟩
    obtain ⟨error, found⟩ := Option.isSome_iff_exists.mp
      (List.findSome?_isSome_iff.mpr ⟨reference, used, Option.isSome_of_mem faulted⟩)
    have failed := (written.resolve_error_iff good error).mpr ((written.first_fault_iff error).mp found)
    rw [resolved] at failed
    cases failed

end WrittenFunction

end LoopDeps.Text
