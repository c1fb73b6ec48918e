import LoopDeps.Text.Parse
import LoopDeps.Proofs.IR.Linking
import LoopDeps.Proofs.Text.Defining
set_option autoImplicit false

/- What a written function resolves to. Parameters come first, then instructions, then constants and globals, and
   all references lead to what they name. -/
namespace LoopDeps

namespace Func

theorem define_blocks (f : Func) (id : ValueId) (instr : Instr) :
    (f.define id instr).blocks =
      f.blocks.modify instr.block fun block => { block with instrs := block.instrs ++ [id] } := rfl

-- Definitions that fill slots one after another, the first ones from behind some values.
theorem define_all_values (instrs : List Instr) (front : List Value) (f : Func)
    (slots : f.values = front ++ List.replicate instrs.length .pending) :
    ((instrs.zipIdx front.length).foldl (fun f item => f.define item.2 item.1) f).values =
      front ++ instrs.map .instr := by
  induction instrs generalizing front f with
  | nil => simpa using slots
  | cons instr rest ih =>
      have filled : (f.define front.length instr).values =
          (front ++ [.instr instr]) ++ List.replicate rest.length .pending := by
        simp [define, slots, List.replicate_succ]
      have next := ih (front ++ [.instr instr]) _ filled
      simpa using next

theorem define_all_blocks (items : List (Instr × ValueId)) (f : Func) :
    (items.foldl (fun f item => f.define item.2 item.1) f).blocks =
      f.blocks.mapIdx fun id block =>
        { block with instrs := block.instrs ++ (items.filter fun item => item.1.block = id).map Prod.snd } := by
  induction items using List.reverseRecOn with
  | nil =>
      apply List.ext_getElem?
      intro id
      cases here : f.blocks[id]? <;> simp [List.getElem?_mapIdx, here]
  | append_singleton items item ih =>
      rw [List.foldl_append, List.foldl_cons, List.foldl_nil, define_blocks, ih]
      apply List.ext_getElem?
      intro id
      rw [List.getElem?_modify, List.getElem?_mapIdx, List.getElem?_mapIdx]
      by_cases here : item.1.block = id
      · cases f.blocks[id]? <;> simp [here]
      · cases f.blocks[id]? <;> simp [here]

theorem define_all_rest (items : List (Instr × ValueId)) (f : Func) :
    let g := items.foldl (fun f item => f.define item.2 item.1) f
    g.name = f.name ∧ g.constants = f.constants ∧ g.globals = f.globals := by
  induction items using List.reverseRecOn with
  | nil => exact ⟨rfl, rfl, rfl⟩
  | append_singleton items item ih => simpa [define] using ih

end Func

namespace Text.WrittenFunction

-- What the first pass makes of a function.
def scope (written : WrittenFunction) : Scope :=
  .declaring written.name written.params written.blocks (entries written.blocks)

-- Where constants and globals start.
def size (written : WrittenFunction) : Nat := written.params.length + (entries written.blocks).length

-- The values of all operands, in source order.
def values (written : WrittenFunction) : List WrittenValue :=
  (entries written.blocks).flatMap fun entry => entry.2.values

def shared (written : WrittenFunction) : List Value := written.values.foldl WrittenValue.noted []

def instr (written : WrittenFunction) (block : BlockId) (instr : WrittenInstr) : Instr :=
  { name := instr.result
    opcode := instr.opcode
    type := instr.meaning
    operands := instr.values.map (WrittenValue.idIn written.scope written.size written.shared)
    targets := instr.labels.map fun label => (written.scope.labels.lookup label).getD 0
    block := block }

def instrs (written : WrittenFunction) : List Instr :=
  (entries written.blocks).map fun entry => written.instr entry.1 entry.2

def arguments (written : WrittenFunction) : List Value :=
  written.params.map fun param => .argument param.name param.type.meaning

-- The ids of a block's instructions.
def listing (written : WrittenFunction) (block : BlockId) : List ValueId :=
  ((written.instrs.zipIdx written.params.length).filter fun item => item.1.block = block).map Prod.snd

-- A block that leads nowhere yet.
def placed (written : WrittenFunction) (id : BlockId) (block : WrittenBlock) : Block :=
  ⟨id, block.label, Scope.weightOf block, written.listing id, [], []⟩

-- Before its blocks are linked.
def unlinked (written : WrittenFunction) : Func :=
  Func.sharing
    { name := written.name
      values := written.arguments ++ written.instrs.map .instr
      blocks := written.blocks.mapIdx written.placed
      constants := []
      globals := [] }
    written.shared

def resolved (written : WrittenFunction) : Func := written.unlinked.link

-- Whether all types can be told, no name comes up twice and all references lead somewhere.
structure Resolvable (written : WrittenFunction) : Prop where
  params : ∀ param ∈ written.params, param.type.Resolves
  declarable : Scope.Declarable written.params written.blocks
  known : ∀ entry ∈ entries written.blocks, ∀ operand ∈ entry.2.operands, operand.Known written.scope

theorem scope_size (written : WrittenFunction) : written.scope.func.values.length = written.size := by
  simp [scope, Scope.declaring, size]

theorem scope_declared (written : WrittenFunction) :
    written.scope.declared =
      ((entries written.blocks).zipIdx written.params.length).map fun (entry, id) =>
        ⟨id, entry.1, entry.2.meaning, entry.2⟩ := rfl

theorem uses_scope (written : WrittenFunction) : Declared.uses written.scope.declared = written.shared := by
  have row : written.scope.declared.flatMap (fun one => one.written.values) = written.values := by
    conv => rhs; rw [values, ← List.zipIdx_map_fst written.params.length (entries written.blocks)]
    rw [scope_declared, List.flatMap_map, List.flatMap_map]
  rw [Declared.uses, row, shared]

theorem filled_scope (written : WrittenFunction) :
    (written.scope.filled written.shared written.scope.declared).sharing written.shared = written.unlinked := by
  have slots : written.scope.func.values = written.arguments ++ List.replicate written.instrs.length .pending := by
    simp [scope, Scope.declaring, arguments, instrs]
  have run : written.scope.filled written.shared written.scope.declared =
      (written.instrs.zipIdx written.params.length).foldl (fun f item => f.define item.2 item.1)
        written.scope.func := by
    rw [Scope.filled, scope_declared, scope_size, instrs, List.zipIdx_map, List.foldl_map, List.foldl_map]
    rfl
  have values := Func.define_all_values written.instrs _ written.scope.func slots
  rw [arguments, List.length_map, ← arguments] at values
  have blocks := Func.define_all_blocks (written.instrs.zipIdx written.params.length) written.scope.func
  obtain ⟨name, -, -⟩ := Func.define_all_rest (written.instrs.zipIdx written.params.length) written.scope.func
  rw [← run] at values blocks name
  have size : (written.scope.filled written.shared written.scope.declared).values.length = written.size := by
    rw [Scope.filled_size, scope_size]
  have place : (written.arguments ++ written.instrs.map Value.instr).length = written.size := by
    simp [arguments, instrs, WrittenFunction.size]
  have declared : written.scope.func.blocks =
      written.blocks.mapIdx fun id block => ⟨id, block.label, Scope.weightOf block, [], [], []⟩ := rfl
  have listed : (written.scope.filled written.shared written.scope.declared).blocks =
      written.blocks.mapIdx written.placed := by
    rw [blocks, declared]
    apply List.ext_getElem?
    intro id
    cases here : written.blocks[id]? <;> simp [here, placed, listing]
  rw [unlinked, Func.sharing, Func.sharing, size, place, values, listed, name]
  rfl

theorem resolve_ok_iff (written : WrittenFunction) (func : Func) :
    written.resolve = .ok func ↔ written.Resolvable ∧ func = written.resolved := by
  have bounds : ∀ one ∈ written.scope.declared, one.id < written.scope.func.values.length := by
    intro one member
    rw [scope_declared] at member
    obtain ⟨⟨entry, id⟩, listed, rfl⟩ := List.mem_map.mp member
    rw [scope_size]
    exact List.snd_lt_add_of_mem_zipIdx listed
  have known : (∀ one ∈ written.scope.declared, one.Known written.scope) ↔
      ∀ entry ∈ entries written.blocks, ∀ operand ∈ entry.2.operands, operand.Known written.scope := by
    conv => rhs; rw [← List.zipIdx_map_fst written.params.length (entries written.blocks)]
    rw [scope_declared, List.forall_mem_map, List.forall_mem_map]
    rfl
  have defined := written.scope.define_all_ok_iff rfl rfl bounds
  rw [uses_scope, filled_scope, known] at defined
  unfold resolve
  simp only [bind_ok_iff, Scope.declare_ok_iff, pure, Except.pure, Except.ok.injEq]
  constructor
  · rintro ⟨_, ⟨⟨params, declarable⟩, rfl⟩, filled, ran, rfl⟩
    obtain ⟨operands, rfl⟩ := (defined filled).mp ran
    exact ⟨⟨params, declarable, operands⟩, rfl⟩
  · rintro ⟨resolvable, rfl⟩
    exact ⟨_, ⟨⟨resolvable.params, resolvable.declarable⟩, rfl⟩, _, (defined _).mpr ⟨resolvable.known, rfl⟩, rfl⟩

theorem resolved_values (written : WrittenFunction) :
    written.resolved.values = written.arguments ++ written.instrs.map .instr ++ written.shared := by
  rw [resolved, Func.link_values]
  rfl

theorem resolved_block? (written : WrittenFunction) (id : BlockId) :
    written.resolved.block? id =
      (written.blocks[id]?).map fun block => written.unlinked.wired id (written.placed id block) := by
  have placed : written.unlinked.block? id = (written.blocks[id]?).map (written.placed id) := List.getElem?_mapIdx
  rw [resolved, Func.link_block, placed, Option.map_map]
  rfl

theorem instrs_length (written : WrittenFunction) : written.instrs.length = (entries written.blocks).length :=
  List.length_map _

theorem front_length (written : WrittenFunction) :
    (written.arguments ++ written.instrs.map Value.instr).length = written.size := by
  simp [arguments, instrs, size]

theorem argument_value (written : WrittenFunction) (i : Nat) (param : WrittenParam) (here : written.params[i]? = some param) :
    written.resolved.value? i = some (.argument param.name param.type.meaning) := by
  obtain ⟨bound, rfl⟩ := List.getElem?_eq_some_iff.mp here
  rw [Func.value?, resolved_values, List.append_assoc, List.getElem?_append_left (by simpa [arguments] using bound)]
  simp [arguments, bound]

theorem instr_value (written : WrittenFunction) (j : Nat) (instr : Instr) (here : written.instrs[j]? = some instr) :
    written.resolved.value? (written.params.length + j) = some (.instr instr) := by
  obtain ⟨bound, rfl⟩ := List.getElem?_eq_some_iff.mp here
  have place : written.params.length + j = written.arguments.length + j := by simp [arguments]
  rw [Func.value?, resolved_values, List.append_assoc, place, List.getElem?_append_right (Nat.le_add_right _ _),
    Nat.add_sub_cancel_left, List.getElem?_append_left (by simpa using bound)]
  simp [bound]

-- The instruction of an entry has the id of its place behind the parameters.
theorem entry_value (written : WrittenFunction) (id : ValueId) (entry : BlockId × WrittenInstr)
    (least : written.params.length ≤ id) (here : (entries written.blocks)[id - written.params.length]? = some entry) :
    written.resolved.value? id = some (.instr (written.instr entry.1 entry.2)) := by
  have made : written.instrs[id - written.params.length]? = some (written.instr entry.1 entry.2) := by
    rw [instrs, List.getElem?_map, here]
    rfl
  have value := written.instr_value _ _ made
  rwa [Nat.add_sub_cancel' least] at value

theorem shared_value (written : WrittenFunction) (j : Nat) :
    written.resolved.value? (written.size + j) = written.shared[j]? := by
  rw [Func.value?, resolved_values, ← front_length, List.getElem?_append_right (Nat.le_add_right _ _),
    Nat.add_sub_cancel_left]

-- A value of a resolved function is an argument, an instruction or shared, and its id tells which.
theorem value_kinds (written : WrittenFunction) (id : ValueId) (value : Value) (here : written.resolved.value? id = some value) :
    (∃ name type, value = .argument name type) ∨ (∃ instr ∈ written.instrs, value = .instr instr) ∨
      written.size ≤ id ∧ written.shared[id - written.size]? = some value := by
  rcases Nat.lt_or_ge id written.size with before | behind
  · rw [Func.value?, resolved_values, List.getElem?_append_left (by rwa [front_length])] at here
    rcases List.mem_append.mp (List.mem_of_getElem? here) with argument | made
    · obtain ⟨param, _, rfl⟩ := List.mem_map.mp argument
      exact .inl ⟨_, _, rfl⟩
    · obtain ⟨instr, listed, rfl⟩ := List.mem_map.mp made
      exact .inr (.inl ⟨instr, listed, rfl⟩)
  · have split : written.size + (id - written.size) = id := Nat.add_sub_cancel' behind
    rw [← split, shared_value] at here
    exact .inr (.inr ⟨behind, here⟩)

end Text.WrittenFunction

namespace Text

theorem resolve_all_ok_iff (written : List WrittenFunction) (fs : List Func) :
    resolveAll written = ⟨fs, none⟩ ↔ List.Forall₂ (fun one f => one.resolve = .ok f) written fs := by
  induction written generalizing fs with
  | nil => simp [resolveAll, List.forall₂_nil_left_iff, eq_comm]
  | cons one rest ih =>
      rw [resolveAll, List.forall₂_cons_left_iff]
      cases resolved : one.resolve with
      | error error => simp
      | ok f =>
          constructor
          · intro all
            obtain ⟨front, done⟩ := Resolved.mk.inj all
            exact ⟨f, _, rfl, (ih _).mp (by rw [← done]), front.symm⟩
          · rintro ⟨_, others, same, all, rfl⟩
            cases same
            rw [(ih others).mpr all]

end Text

theorem parse_ok_iff (text : String) (fs : List Func) :
    parse text = .ok fs ↔
      ∃ written, Text.read text.toList = .ok written ∧ List.Forall₂ (fun one f => one.resolve = .ok f) written fs := by
  unfold parse Text.resolveText
  cases Text.read text.toList with
  | error error => simp
  | ok written =>
      simp only [Except.ok.injEq, exists_eq_left', ← Text.resolve_all_ok_iff]
      obtain ⟨functions, error⟩ := Text.resolveAll written
      cases error <;> simp

end LoopDeps
