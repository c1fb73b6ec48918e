import LoopDeps.Proofs.Text.Faithful
import LoopDeps.Proofs.Text.Reading
import LoopDeps.Proofs.Text.Yielding
set_option autoImplicit false

/- Which values of a function look the same. The text keeps its own names apart, and nothing keeps the name that an
   instruction without one is shown by apart from them. -/
namespace LoopDeps

namespace Text.WrittenValue

-- The value that is spelled so, told by its first character.
def ofSpelling : Chars → WrittenValue
  | '%' :: rest => .name (String.ofList rest)
  | '@' :: rest => .global (String.ofList rest)
  | chars => .constant (String.ofList chars)

-- Constants are spelled so that no name is.
def Plain : WrittenValue → Prop
  | .constant text => IsNumber text ∨ IsKeyword text
  | _ => True

theorem of_spelling (value : WrittenValue) (plain : value.Plain) : ofSpelling value.spelling.toList = value := by
  cases value with
  | name text => simp [spelling, ofSpelling]
  | global text => simp [spelling, ofSpelling]
  | constant text =>
      obtain ⟨c, more, same, opens⟩ := Grammar.constant_head text plain
      have noName : c ≠ '%' := by rintro rfl; revert opens; decide
      have noGlobal : c ≠ '@' := by rintro rfl; revert opens; decide
      have whole : ofSpelling (c :: more) = .constant (String.ofList (c :: more)) := by simp [ofSpelling, noName, noGlobal]
      rw [spelling, same, whole, ← same, String.ofList_toList]

theorem spelling_injective (a b : WrittenValue) (first : a.Plain) (second : b.Plain) (same : a.spelling = b.spelling) :
    a = b := by
  have read := congrArg (fun text => ofSpelling text.toList) same
  simpa only [of_spelling a first, of_spelling b second] using read

end Text.WrittenValue

namespace Func

-- The name that the text gives a parameter or a result.
def localName? (f : Func) (id : ValueId) : Option String :=
  match f.value? id with
  | some (.argument name _) => some name
  | some (.instr instr) => instr.name
  | _ => none

def invented (id : ValueId) : String := "v" ++ toString id

-- The first value is an instruction without a name, and the text gives the second one the name that it is shown by.
def Mistaken (f : Func) (a b : ValueId) : Prop :=
  (∃ instr, f.value? a = some (.instr instr) ∧ instr.name = none) ∧ f.localName? b = some (invented a)

-- Whether a value is an operand somewhere.
def Used (f : Func) (id : ValueId) : Prop := ∃ user instr, f.instr? user = some instr ∧ id ∈ instr.operands

-- What a value is shown as.
def shown (f : Func) (id : ValueId) : Text.WrittenValue :=
  match f.value? id with
  | some (.constant text) => .constant text
  | some (.global name) => .global name
  | _ => .name ((f.localName? id).getD (invented id))

theorem value_name_shown (f : Func) (id : ValueId) : f.valueName id = (f.shown id).spelling := by
  have made : "%v" ++ toString id = "%" ++ invented id := by
    rw [invented, ← String.append_assoc]
    rfl
  rw [valueName, shown, localName?]
  cases f.value? id with
  | none => exact made
  | some value =>
      cases value with
      | argument | constant | global => rfl
      | pending => exact made
      | instr instr =>
          cases result : instr.name with
          | none =>
              simp only [result]
              exact made
          | some name =>
              simp only [result]
              rfl

theorem invented_injective (a b : ValueId) (same : invented a = invented b) : a = b := by
  have digits := congrArg String.toList same
  simp only [invented, String.toList_append] at digits
  exact Output.digits_of_injective a b (List.append_cancel_left digits)

theorem shown_local (f : Func) (id : ValueId) (name : String) (here : f.localName? id = some name) :
    f.shown id = .name name := by
  unfold shown
  split
  · rename_i constant
    simp [localName?, constant] at here
  · rename_i global
    simp [localName?, global] at here
  · rw [here, Option.getD_some]

theorem shown_unnamed (f : Func) (id : ValueId) (instr : Instr) (here : f.value? id = some (.instr instr))
    (unnamed : instr.name = none) : f.shown id = .name (invented id) := by
  simp only [shown, localName?, here, unnamed, Option.getD_none]

theorem mistaken_shown (f : Func) (a b : ValueId) (mistaken : f.Mistaken a b) : f.valueName a = f.valueName b := by
  obtain ⟨⟨instr, here, unnamed⟩, there⟩ := mistaken
  rw [value_name_shown, value_name_shown, f.shown_unnamed a instr here unnamed, f.shown_local b _ there]

-- Where what a value is shown as comes from.
inductive Origin (f : Func) (id : ValueId) : Text.WrittenValue → Prop
  | written (name : String) (here : f.localName? id = some name) : Origin f id (.name name)
  | unnamed (name : String) (instr : Instr) (here : f.value? id = some (.instr instr)) (unnamed : instr.name = none)
      (made : name = invented id) : Origin f id (.name name)
  | constant (text : String) (here : f.value? id = some (.constant text)) : Origin f id (.constant text)
  | global (name : String) (here : f.value? id = some (.global name)) : Origin f id (.global name)

-- Why values whose names stand in a text look different.
structure NamesApart (f : Func) : Prop where
  locals : ∀ a b name, f.localName? a = some name → f.localName? b = some name → a = b
  constants : ∀ a b text, f.value? a = some (.constant text) → f.value? b = some (.constant text) → a = b
  globals : ∀ a b name, f.value? a = some (.global name) → f.value? b = some (.global name) → a = b
  plain : ∀ id text, f.value? id = some (.constant text) → Text.IsNumber text ∨ Text.IsKeyword text
  finished : Value.pending ∉ f.values

section

variable (f : Func) (apart : f.NamesApart)

include apart

theorem shown_plain (id : ValueId) : (f.shown id).Plain := by
  have plain := apart.plain id
  unfold shown
  split
  · rename_i text here
    exact plain text here
  · trivial
  · trivial

theorem shown_origin (id : ValueId) (inside : id < f.values.length) : f.Origin id (f.shown id) := by
  have here : f.value? id = some f.values[id] := List.getElem?_eq_getElem inside
  have filled : f.values[id] ≠ .pending := fun same => apart.finished (same ▸ List.getElem_mem inside)
  cases found : f.values[id] with
  | pending => exact absurd found filled
  | constant text =>
      rw [found] at here
      rw [show f.shown id = .constant text by rw [shown, here]]
      exact .constant text here
  | global name =>
      rw [found] at here
      rw [show f.shown id = .global name by rw [shown, here]]
      exact .global name here
  | argument name type =>
      rw [found] at here
      have own : f.localName? id = some name := by rw [localName?, here]
      rw [f.shown_local id name own]
      exact .written name own
  | instr instr =>
      rw [found] at here
      cases result : instr.name with
      | some name =>
          have own : f.localName? id = some name := by rw [localName?, here]; exact result
          rw [f.shown_local id name own]
          exact .written name own
      | none =>
          rw [f.shown_unnamed id instr here result]
          exact .unnamed _ instr here result rfl

theorem value_names_eq (a b : ValueId) (insideA : a < f.values.length) (insideB : b < f.values.length)
    (same : f.valueName a = f.valueName b) : a = b ∨ f.Mistaken a b ∨ f.Mistaken b a := by
  rw [value_name_shown, value_name_shown] at same
  have shown := Text.WrittenValue.spelling_injective _ _ (f.shown_plain apart a) (f.shown_plain apart b) same
  have first := f.shown_origin apart a insideA
  have second := f.shown_origin apart b insideB
  rw [← shown] at second
  generalize f.shown a = value at first second
  cases first with
  | written name here =>
      cases second with
      | written _ there => exact .inl (apart.locals a b name here there)
      | unnamed _ instr there unnamed made => exact .inr (.inr ⟨⟨instr, there, unnamed⟩, made ▸ here⟩)
  | unnamed name instr here unnamed made =>
      cases second with
      | written _ there => exact .inr (.inl ⟨⟨instr, here, unnamed⟩, made ▸ there⟩)
      | unnamed _ _ _ _ again => exact .inl (invented_injective a b (made.symm.trans again))
  | constant text here =>
      cases second with
      | constant _ there => exact .inl (apart.constants a b text here there)
  | global name here =>
      cases second with
      | global _ there => exact .inl (apart.globals a b name here there)

end

end Func

namespace Text.WrittenFunction

-- A name of a resolved function is the one written at its place.
theorem local_place (written : WrittenFunction) (id : ValueId) (name : String)
    (here : written.resolved.localName? id = some name) :
    (localNames written.params (entries written.blocks))[id]? = some (some name) := by
  unfold Func.localName? at here
  rw [localNames]
  rcases Nat.lt_or_ge id written.params.length with before | behind
  · have value := written.argument_value id _ (List.getElem?_eq_getElem before)
    rw [value] at here
    rw [List.getElem?_append_left (by simpa using before), List.getElem?_map, List.getElem?_eq_getElem before]
    exact congrArg some here
  · rw [List.getElem?_append_right (by simpa using behind), List.getElem?_map, List.length_map]
    cases found : (entries written.blocks)[id - written.params.length]? with
    | some entry =>
        rw [written.entry_value id entry behind found] at here
        exact congrArg some here
    | none =>
        -- Behind the instructions there are only shared values.
        have least : written.size ≤ id := by
          have past := List.getElem?_eq_none_iff.mp found
          rw [size]
          omega
        rw [← Nat.add_sub_cancel' least, shared_value] at here
        split at here
        · rename_i shared
          rcases written.shared_kinds _ (List.mem_of_getElem? shared) with ⟨_, same⟩ | ⟨_, same⟩ <;> cases same
        · rename_i shared
          rcases written.shared_kinds _ (List.mem_of_getElem? shared) with ⟨_, same⟩ | ⟨_, same⟩ <;> cases same
        · cases here

-- A constant or a global is there because the text uses it.
theorem used_shared (written : WrittenFunction) (value : WrittenValue) (common : Value) (id : ValueId)
    (stands : value.shared? = some common) (here : written.resolved.value? id = some common) : value ∈ written.values := by
  have shared : (∃ text, common = .constant text) ∨ ∃ name, common = .global name := by
    cases value <;> cases stands <;> simp
  have member := List.mem_of_getElem? (written.shared_place common id shared here).2
  rw [shared_eq, List.mem_eraseDups, List.mem_filterMap] at member
  obtain ⟨used, listed, same⟩ := member
  cases value <;> cases stands <;> cases used <;> cases same <;> exact listed

theorem entry_spelled (written : WrittenFunction) (spelled : written.Spelled) (entry : BlockId × WrittenInstr)
    (listed : entry ∈ entries written.blocks) : entry.2.Spelled := by
  obtain ⟨block, found, member⟩ := (mem_entries written.blocks entry).mp listed
  exact (spelled.blocks block (List.mem_of_getElem? found)).instrs entry.2 member

theorem valid_value (written : WrittenFunction)
    (spelled : written.Spelled) (value : WrittenValue) (used : value ∈ written.values) : Source.IsValue value := by
  obtain ⟨entry, listed, here⟩ := List.mem_flatMap.mp used
  obtain ⟨operand, among, same⟩ := List.mem_filterMap.mp here
  have fits := (written.entry_spelled spelled entry listed).operands operand among
  cases operand <;> cases same
  · exact fits
  · exact fits.1

theorem names_apart (written : WrittenFunction) (resolvable : written.Resolvable) (spelled : written.Spelled) :
    written.resolved.NamesApart where
  locals := by
    intro a b name here there
    have first := (local_iff _ resolvable.declarable.names name a).mpr (written.local_place a name here)
    have second := (local_iff _ resolvable.declarable.names name b).mpr (written.local_place b name there)
    exact Option.some.inj (first.symm.trans second)
  constants := fun a b text => written.shared_apart _ (.inl ⟨text, rfl⟩) a b
  globals := fun a b name => written.shared_apart _ (.inr ⟨name, rfl⟩) a b
  plain := fun id text here => written.valid_value spelled _ (written.used_shared (.constant text) _ id rfl here)
  finished := written.finished

-- An operand names what it stands for.
theorem operand_named (written : WrittenFunction) (resolvable : written.Resolvable) (id : ValueId)
    (used : written.resolved.Used id) :
    id < written.resolved.values.length ∧
      ∀ instr, written.resolved.value? id = some (.instr instr) → instr.name ≠ none := by
  obtain ⟨user, made, listed, operand⟩ := used
  obtain ⟨entry, member, rfl⟩ := List.mem_map.mp (written.made_of_instr user made listed)
  obtain ⟨value, among, rfl⟩ := List.mem_map.mp operand
  have denotes := written.denotes_operand resolvable entry member value among
  refine ⟨written.resolved.denotes_inside value _ denotes, fun instr here unnamed => ?_⟩
  cases value with
  | name text =>
      rcases denotes with ⟨_, argument⟩ | ⟨_, found, named⟩
      · cases argument.symm.trans here
      · cases found.symm.trans here
        cases named.symm.trans unnamed
  | global text => cases (show _ = _ from denotes).symm.trans here
  | constant text => cases (show _ = _ from denotes).symm.trans here

end Text.WrittenFunction

-- Every function of a module is what one of its written functions resolves to.
theorem parsed_from (text : String) (functions : List Func) (parses : parse text = .ok functions) :
    ∃ written, Text.read text.toList = .ok written ∧ ∀ f ∈ functions, ∃ one ∈ written, one.Resolvable ∧ f = one.resolved := by
  obtain ⟨written, read, resolved⟩ := (parse_ok_iff text functions).mp parses
  refine ⟨written, read, fun f member => ?_⟩
  obtain ⟨i, inside, rfl⟩ := List.getElem_of_mem member
  have before : i < written.length := resolved.length_eq ▸ inside
  exact ⟨written[i], List.getElem_mem before, (written[i].resolve_ok_iff _).mp (resolved.get before inside)⟩

-- Two values of a function that was read are shown alike exactly if an instruction without a name is shown by the name
-- that the text gives the other one. No operand is such an instruction.
theorem value_names_clash (text : String) (functions : List Func) (parses : parse text = .ok functions) :
    ∀ f ∈ functions,
      (∀ a < f.values.length, ∀ b < f.values.length,
        f.valueName a = f.valueName b ↔ a = b ∨ f.Mistaken a b ∨ f.Mistaken b a) ∧
      (∀ id, f.Used id → ∀ instr, f.value? id = some (.instr instr) → instr.name ≠ none) ∧
      ∀ a b, f.Used a → f.Used b → f.valueName a = f.valueName b → a = b := by
  obtain ⟨written, read, comes⟩ := parsed_from text functions parses
  intro f member
  obtain ⟨one, listed, resolvable, rfl⟩ := comes f member
  have apart := one.names_apart resolvable (Text.read_spelled text.toList written read one listed)
  refine ⟨fun a insideA b insideB => ⟨one.resolved.value_names_eq apart a b insideA insideB, ?_⟩,
    fun id used => (one.operand_named resolvable id used).2, ?_⟩
  · rintro (rfl | mistaken | mistaken)
    · rfl
    · exact one.resolved.mistaken_shown a b mistaken
    · exact (one.resolved.mistaken_shown b a mistaken).symm
  · intro a b usedA usedB same
    obtain ⟨insideA, namedA⟩ := one.operand_named resolvable a usedA
    obtain ⟨insideB, namedB⟩ := one.operand_named resolvable b usedB
    rcases one.resolved.value_names_eq apart a b insideA insideB same with eq | mistaken | mistaken
    · exact eq
    · obtain ⟨⟨instr, here, unnamed⟩, _⟩ := mistaken
      exact absurd unnamed (namedA instr here)
    · obtain ⟨⟨instr, here, unnamed⟩, _⟩ := mistaken
      exact absurd unnamed (namedB instr here)

-- A parameter that is called as the instruction without a name is shown.
def twiceText : String :=
"func @f(%v1: i32) \x7b
entry:
  add i32 %v1, 1
  ret void
\x7d
"

def sameNames (f : Func) : Bool := 1 < f.values.length && f.valueName 0 == f.valueName 1

theorem twice_text_clashes : (parse twiceText).toOption.any (fun functions => functions.any sameNames) = true := by
  decide +kernel

theorem twice_text_found : ∃ functions, parse twiceText = .ok functions ∧ ∃ f ∈ functions, sameNames f = true := by
  have clashes := twice_text_clashes
  cases parsed : parse twiceText with
  | error error => simp [parsed, Except.toOption] at clashes
  | ok functions =>
      rw [parsed] at clashes
      exact ⟨functions, rfl, List.any_eq_true.mp clashes⟩

theorem twice_text_read : ∃ functions, parse twiceText = .ok functions ∧ ∃ f ∈ functions,
    f.valueName 0 = f.valueName 1 ∧ (f.Mistaken 0 1 ∨ f.Mistaken 1 0) := by
  obtain ⟨functions, parses, f, member, same⟩ := twice_text_found
  obtain ⟨inside, equal⟩ := Bool.and_eq_true_iff.mp same
  have bound : 1 < f.values.length := of_decide_eq_true inside
  have names := eq_of_beq equal
  have clash := ((value_names_clash twiceText functions parses f member).1 0 (Nat.lt_of_succ_lt bound) 1 bound).mp names
  exact ⟨functions, parses, f, member, names, clash.resolve_left Nat.zero_ne_one⟩

theorem not_all_names_apart :
    ¬ ∀ text functions, parse text = .ok functions → ∀ f ∈ functions, ∀ a < f.values.length, ∀ b < f.values.length,
      f.valueName a = f.valueName b → a = b := by
  intro apart
  obtain ⟨functions, parses, f, member, same⟩ := twice_text_found
  obtain ⟨inside, equal⟩ := Bool.and_eq_true_iff.mp same
  have bound : 1 < f.values.length := of_decide_eq_true inside
  exact Nat.zero_ne_one (apart twiceText functions parses f member 0 (Nat.lt_of_succ_lt bound) 1 bound (eq_of_beq equal))

end LoopDeps
