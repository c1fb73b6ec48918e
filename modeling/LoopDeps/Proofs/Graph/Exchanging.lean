import LoopDeps.Proofs.Flow.Opposing
import LoopDeps.Proofs.Graph.Guising
import LoopDeps.Proofs.Graph.Tracing
set_option autoImplicit false

/- The graph of a loop when a two-way branch of its function names its targets in the opposite order. It is the same
   graph, except that the control edges that leave from the branch are marked with the other arm. -/
namespace LoopDeps

def Dependence.opposite : Dependence → Dependence
  | .data => .data
  | .control arm => .control !arm

-- The graph with the arms of one branch exchanged: control edges leave from the node of the branch they are for.
def Graph.exchanged (g : Graph) (branch : ValueId) : Graph :=
  { g with
    edges := g.edges.map fun e =>
      if g.valueAt e.source = branch then { e with kind := e.kind.opposite } else e }

theorem Dependence.opposite_data (kind : Dependence) : kind.opposite = .data ↔ kind = .data := by
  cases kind with
  | data => exact Iff.rfl
  | control arm => exact ⟨nofun, nofun⟩

section

variable (f : Func) (last : ValueId) (loopId : Nat) (blocks : List BlockId)

-- The loop in the function as it is linked.
def Func.loop : Body := ⟨loopId, f.link, blocks⟩

def BodyInstr.opposed (i : BodyInstr) : BodyInstr := if last = i.id then { i with instr := i.instr.opposed } else i

theorem block_instrs_opposed (block : Block) :
    Body.blockInstrs (f.opposed last).link (block.opposed last) =
      (Body.blockInstrs f.link block).map (BodyInstr.opposed last) := by
  obtain ⟨_, weight, instrs, _⟩ := block.opposed_frame last
  rw [Body.blockInstrs, Body.blockInstrs, instrs, weight, List.map_filterMap]
  refine List.filterMap_congr fun id _ => ?_
  rw [f.link_instr_opposed]
  cases f.link.instr? id with
  | none => rfl
  | some instr =>
      simp only [Option.map_some, BodyInstr.opposed]
      split <;> rfl

theorem instrs_opposed :
    ((f.opposed last).loop loopId blocks).instrs = (f.loop loopId blocks).instrs.map (BodyInstr.opposed last) := by
  have listed : blocks.filterMap (f.opposed last).link.block? =
      (blocks.filterMap f.link.block?).map fun block => block.opposed last := by
    rw [List.map_filterMap]
    exact List.filterMap_congr fun id _ => f.block_opposed last id
  show List.flatMap _ (blocks.filterMap (f.opposed last).link.block?) = _
  rw [listed, List.flatMap_map, Body.instrs, List.map_flatMap]
  exact List.flatMap_congr fun block _ => block_instrs_opposed f last block

theorem weight_opposed : ((f.opposed last).loop loopId blocks).weight = (f.loop loopId blocks).weight := by
  rw [Body.weight, Body.weight, instrs_opposed, List.map_map]
  refine congrArg Func.sumOf (List.map_congr_left fun i _ => ?_)
  simp only [Function.comp_apply, BodyInstr.opposed]
  split <;> rfl

theorem total_weight_opposed : (f.opposed last).link.totalWeight = f.link.totalWeight := by
  rw [Func.totalWeight, Func.totalWeight, Func.link_opposed, List.map_map]
  refine congrArg Func.sumOf (List.map_congr_left fun block _ => ?_)
  obtain ⟨_, weight, instrs, _⟩ := block.opposed_frame last
  rw [Function.comp_apply, weight, instrs]

-- The nodes to start from do not show where a branch leads.
theorem of_body_opposed :
    Graph.ofBody ((f.opposed last).loop loopId blocks) = Graph.ofBody (f.loop loopId blocks) := by
  have nodes : ∀ g : Graph, ∀ i : BodyInstr, g.addInstr (i.opposed last) = g.addInstr i := by
    intro g i
    unfold BodyInstr.opposed
    split <;> rfl
  have total : ((f.opposed last).loop loopId blocks).func.totalWeight = (f.loop loopId blocks).func.totalWeight :=
    total_weight_opposed f last
  have coverage : ((f.opposed last).loop loopId blocks).coverage = (f.loop loopId blocks).coverage := by
    rw [Body.coverage, weight_opposed, total]
    rfl
  rw [Graph.ofBody, instrs_opposed, List.foldl_map, coverage]
  simp only [nodes]
  rfl

theorem data_pass_opposed :
    DataLinks.pass ((f.opposed last).loop loopId blocks) = DataLinks.pass (f.loop loopId blocks) := by
  have name : ∀ id, (f.opposed last).link.valueName id = f.link.valueName id := by
    rw [Func.link_value_name, Func.link_value_name]
    exact f.value_name_opposed last
  have operand : DataLinks.linkOperand (f.opposed last).link = DataLinks.linkOperand f.link := by
    funext consumer weight operand
    simp only [DataLinks.linkOperand, DataLinks.producerOf, name]
  have consumer : DataLinks.linkConsumer (f.opposed last).link = DataLinks.linkConsumer f.link := by
    funext consumer
    refine congrArg (Edit.getNode consumer >>= ·) (funext fun n => ?_)
    rw [operand]
    rcases f.instr_link_opposed last n.value with same | ⟨instr, before, after⟩
    · rw [same]
    · rw [before, after]
      rfl
  have consumers : DataLinks.linkConsumers (f.opposed last).link = DataLinks.linkConsumers f.link := by
    funext ids
    induction ids with
    | nil => rfl
    | cons id rest ih => rw [DataLinks.linkConsumers, DataLinks.linkConsumers, consumer, ih]
  unfold DataLinks.pass Func.loop
  simp only [consumers]

theorem address_pass_opposed :
    AddressChains.pass ((f.opposed last).loop loopId blocks) = AddressChains.pass (f.loop loopId blocks) := by
  have operands : ∀ id, ((f.opposed last).link.instr? id).elim [] Instr.operands =
      (f.link.instr? id).elim [] Instr.operands := by
    intro id
    rcases f.instr_link_opposed last id with same | ⟨instr, before, after⟩
    · rw [same]
    · rw [before, after]
      rfl
  have address : AddressChains.isAddress (f.opposed last).link = AddressChains.isAddress f.link := by
    funext n
    unfold AddressChains.isAddress
    rcases f.instr_link_opposed last n.value with same | ⟨instr, before, after⟩
    · rw [same]
    · rw [before, after]
      rfl
  have expand : AddressChains.expand (f.opposed last).link = AddressChains.expand f.link := by
    funext id
    simp only [AddressChains.expand, operands]
  unfold AddressChains.pass Func.loop
  simp only [AddressChains.staged, address, expand]

end

namespace Guise

-- The guise in which some edges show the other arm.
def turning (shown : Edge → Bool) : Guise where
  loopId := id
  coverage := id
  kind e := if shown e then e.kind.opposite else e.kind
  data e := by
    split
    · exact e.kind.opposite_data
    · exact Iff.rfl

theorem turning_error (shown : Edge → Bool) (error : LoopError) : (turning shown).error error = error := by
  cases error <;> rfl

theorem turning_congr (shown other : Edge → Bool) (g : Graph)
    (same : ∀ id e, g.edges.get? id = some e → e.kind.isControl = true → shown e = other e) :
    (turning shown).on g = (turning other).on g := by
  refine congrArg (fun edges => { (turning other).on g with edges }) (Table.map_congr fun id e found => ?_)
  have kinds : (turning shown).kind e = (turning other).kind e := by
    cases kind : e.kind with
    | data => rw [((turning shown).data e).mpr kind, ((turning other).data e).mpr kind]
    | control arm => simp only [turning, same id e found (by rw [kind]; rfl)]
  rw [edge, edge, kinds]

theorem turning_data (shown : Edge → Bool) (g : Graph) (data : ∀ id e, g.edges.get? id = some e → e.kind = .data) :
    (turning shown).on g = g := by
  have nothing : (turning fun _ => false).on g = g := congrArg (fun edges => { g with edges }) (Table.map_id g.edges)
  refine (turning_congr shown (fun _ => false) g fun id e found control => ?_).trans nothing
  rw [data id e found] at control
  cases control

end Guise

namespace Graph

theorem exchanged_turning (g : Graph) (branch : ValueId) :
    (Guise.turning fun e => g.valueAt e.source == branch).on g = g.exchanged branch := by
  refine congrArg (fun edges => { g with edges }) (Table.map_congr fun _ e _ => ?_)
  by_cases here : g.valueAt e.source = branch
  · simp only [Guise.edge, Guise.turning, here, beq_self_eq_true, if_true]
  · simp only [Guise.edge, Guise.turning, here, beq_eq_false_iff_ne.mpr here, Bool.false_eq_true, if_false]

-- The edges that leave from the node of a value.
def leaves (g : Graph) (value : ValueId) (e : Edge) : Bool := g.nodeOf? value == some e.source

-- Those that did when the control links were made. Later edits attach them elsewhere and keep their ids.
def leftFrom (linked controlled : Graph) (value : ValueId) (e : Edge) : Bool :=
  (controlled.edges.get? e.id).any (linked.leaves value)

theorem left_loose (linked controlled : Graph) (value : ValueId) :
    (Guise.turning (leftFrom linked controlled value)).Loose := by
  intro e other sameId sameKind
  simp only [Guise.turning, leftFrom, sameId, sameKind]
  rfl

theorem node_of_inj (g : Graph) (indexed : g.Indexed) (value other : ValueId) (id : NodeId)
    (first : g.nodeOf? value = some id) (second : g.nodeOf? other = some id) : value = other := by
  obtain ⟨n, node, sameValue, _⟩ := indexed.valueNodes value id first
  obtain ⟨m, again, sameOther, _⟩ := indexed.valueNodes other id second
  cases Option.some.inj (node.symm.trans again)
  exact sameValue.symm.trans sameOther

end Graph

namespace ControlLinks

section

variable (f : Func) (closed : f.Closed) (last : ValueId) (loopId : Nat) (blocks : List BlockId) (linked : Graph)

include closed

-- Of all branches, the ones that end in the instruction turn.
theorem turns_opposed (indexed : linked.Indexed) (branch : BlockId) :
    TurnsAt (Guise.turning (linked.leaves last)) linked.nodeOf? ((f.opposed last).loop loopId blocks)
      (f.loop loopId blocks) (Flow.postDominance (f.opposed last).link).dominates
      (Flow.postDominance f.link).dominates branch := by
  intro block value terminator found twoWay isLast known
  have ends : f.link.end? branch = some value := (congrArg (Option.bind · _) found).trans isLast
  have width : (f.link.succ branch).length = 2 := by
    have read : f.link.succ branch = block.succ := congrArg (Option.elim · [] Block.succ) found
    rw [read, twoWay]
  refine ⟨if f.link.end? branch = some last then Bool.not else id, ⟨?_, ?_⟩⟩
  · intro m other there
    exact depends_on_opposed f closed last branch m width (List.getElem?_eq_some_iff.mp there).1
  · intro e arm source kind
    have atBranch : linked.leaves last e = true ↔ value = last := by
      rw [Graph.leaves, source, beq_iff_eq]
      exact ⟨fun same => linked.node_of_inj indexed value last terminator known same, fun same => same ▸ known⟩
    simp only [Guise.turning, ends, Option.some.injEq, kind, atBranch]
    by_cases same : value = last
    · simp only [if_pos same, Dependence.opposite]
    · simp only [if_neg same, id]

theorem pass_opposed (indexed : linked.Indexed) (data : ∀ id e, linked.edges.get? id = some e → e.kind = .data) :
    (pass ((f.opposed last).loop loopId blocks) (Flow.postDominance (f.opposed last).link).dominates).run linked =
      (Guise.turning (linked.leaves last)).result
        ((pass (f.loop loopId blocks) (Flow.postDominance f.link).dominates).run linked) := by
  have faces : ∀ id, ((f.opposed last).link.block? id).map Block.face = (f.link.block? id).map Block.face := by
    intro id
    rw [f.block_opposed last id, Option.map_map]
    refine congrArg (Option.map · (f.link.block? id)) (funext fun block => ?_)
    obtain ⟨label, _, instrs, _, width⟩ := block.opposed_frame last
    rw [Function.comp_apply, Block.face, label, instrs, width]
    rfl
  have carried := pass_carries (Guise.turning (linked.leaves last)) linked ((f.opposed last).loop loopId blocks)
    (f.loop loopId blocks) _ _ ⟨rfl, rfl, faces⟩ (turns_opposed f closed last loopId blocks linked indexed)
  rwa [Guise.Carries, Guise.turning_data _ linked data] at carried

end

end ControlLinks

namespace Graph

open AddressChains

section

variable (body : Body) (pdom : ControlLinks.PostDominates) (linked controlled middle : Graph) (well : linked.WellFormed)
  (data : ∀ id e, linked.edges.get? id = some e → e.kind = .data) (added : Controlled linked controlled)
  (guarded : ControlLinks.Guarded body pdom linked controlled)

include well data added guarded

-- A control edge of the finished graph was added under the same id, and still leaves from the value of the branch that
-- it was added for.
theorem control_edge_origin (unfolded : Unfolded controlled (staged body.func controlled) middle)
    (s : Backedges.Search) (id : EdgeId) (e : Edge)
    (found : (Backedges.annotate (withoutStaged body.func controlled middle) s).edges.get? id = some e)
    (control : e.kind.isControl = true) :
    e.id = id ∧ ∃ old last, controlled.edges.get? id = some old ∧ linked.nodeOf? last = some old.source ∧
      (Backedges.annotate (withoutStaged body.func controlled middle) s).valueAt e.source = last := by
  have edges : (withoutStaged body.func controlled middle).edges = middle.edges :=
    (fold_remove_frame (staged body.func controlled) middle).1
  obtain ⟨unmarked, before, rfl⟩ := Option.map_eq_some_iff.mp ((Table.get_map _ _ id).symm.trans found)
  rw [edges] at before
  refine ⟨unfolded.well.mirrored.edgeKeys id unmarked before, ?_⟩
  have control : unmarked.kind.isControl = true := control
  rcases unfolded.edges id unmarked before with ⟨kind, _⟩ | ⟨old, there, kind, sameSource, _⟩
  · rw [kind] at control
    cases control
  rcases guarded.edges id old there with early | ⟨branch, m, arm, guards⟩
  · rw [kind, data id old early] at control
    cases control
  obtain ⟨last, _, known⟩ := guards.branches.last
  obtain ⟨n, node, sameValue, _⟩ := well.indexed.valueNodes last old.source known
  refine ⟨old, last, there, known, ?_⟩
  rw [value_at_annotated, valueAt, (ends_stay body.func controlled middle unfolded id unmarked before).1, ← valueAt,
    sameSource, value_at_same linked controlled _ (ControlLinks.controlled_nodes linked controlled added _),
    value_at_node linked old.source n node, sameValue]

theorem left_finished (unfolded : Unfolded controlled (staged body.func controlled) middle) (s : Backedges.Search)
    (value : ValueId) (id : EdgeId) (e : Edge)
    (found : (Backedges.annotate (withoutStaged body.func controlled middle) s).edges.get? id = some e)
    (control : e.kind.isControl = true) :
    leftFrom linked controlled value e =
      ((Backedges.annotate (withoutStaged body.func controlled middle) s).valueAt e.source == value) := by
  obtain ⟨key, old, last, there, known, source⟩ :=
    control_edge_origin body pdom linked controlled middle well data added guarded unfolded s id e found control
  rw [leftFrom, key, there, Option.any_some, leaves, source, Bool.eq_iff_iff, beq_iff_eq, beq_iff_eq]
  constructor
  · exact fun same => linked.node_of_inj well.indexed last value old.source known same
  · exact fun same => same ▸ known

end

-- What is done to a graph when its control edges are there.
def finish (body : Body) : Edit Unit := do
  let _ ← AddressChains.pass body
  let _ ← Backedges.pass

theorem finish_run (body : Body) (g : Graph) (well : g.WellFormed) :
    ∃ middle s, (finish body).run g = .ok () (Backedges.annotate (withoutStaged body.func g middle) s) ∧
      Unfolded g (staged body.func g) middle := by
  obtain ⟨middle, expandRan, unfolded⟩ := pass_unfolds body g well
  have wellExpanded := (unfolded_removed body.func g middle well unfolded).1
  refine ⟨middle, Backedges.search (withoutStaged body.func g middle), ?_, unfolded⟩
  rw [finish, Edit.run_bind_ok _ _ g _ _ expandRan,
    Edit.run_bind_ok _ _ _ _ _ (Backedges.pass_run _ wellExpanded.mirrored), EStateM.run_pure]

theorem finish_carries (d : Guise) (loose : d.Loose) (body : Body) (g : Graph) :
    d.Carries (finish body) (finish body) g := by
  apply d.carries_bind _ _ _ _ g (AddressChains.pass_carries d g loose body body rfl)
  intro _ expanded _
  exact d.carries_bind _ _ _ _ expanded (Backedges.pass_carries d expanded loose) fun _ last _ => d.carries_pure () last

theorem finish_exchanged (body : Body) (pdom : ControlLinks.PostDominates) (linked controlled : Graph)
    (well : linked.WellFormed) (data : ∀ id e, linked.edges.get? id = some e → e.kind = .data)
    (added : Controlled linked controlled) (guarded : ControlLinks.Guarded body pdom linked controlled)
    (value : ValueId) :
    ∃ finished, (finish body).run controlled = .ok () finished ∧
      (finish body).run ((Guise.turning (linked.leaves value)).on controlled) =
        .ok () (finished.exchanged value) := by
  have wellHere := ControlLinks.controlled_well_formed linked controlled well added
  obtain ⟨middle, s, ran, unfolded⟩ := finish_run body controlled wellHere
  refine ⟨_, ran, ?_⟩
  -- From here on the edges are told by their ids, since their ends may move.
  have start : (Guise.turning (linked.leaves value)).on controlled =
      (Guise.turning (leftFrom linked controlled value)).on controlled := by
    refine Guise.turning_congr _ _ controlled fun id e found _ => ?_
    rw [leftFrom, wellHere.mirrored.edgeKeys id e found, found, Option.any_some]
  have carried := finish_carries _ (left_loose linked controlled value) body controlled
  rw [Guise.Carries, ran] at carried
  rw [start, carried, ← exchanged_turning]
  exact congrArg (EStateM.Result.ok ()) (Guise.turning_congr _ _ _
    (left_finished body pdom linked controlled middle well data added guarded unfolded s value))

theorem construct_opposed (f : Func) (closed : f.Closed) (last : ValueId) (loopId : Nat) (blocks : List BlockId) :
    construct ((f.opposed last).loop loopId blocks) (Flow.postDominance (f.opposed last).link).dominates =
      (construct (f.loop loopId blocks) (Flow.postDominance f.link).dominates).map fun g => g.exchanged last := by
  rw [construct, construct, of_body_opposed]
  cases built : ofBody (f.loop loopId blocks) with
  | error error => rfl
  | ok start =>
      obtain ⟨linked, linkRan, supplied⟩ :=
        DataLinks.pass_supplies (f.loop loopId blocks) start (of_body_placed _ start built)
      have data : ∀ id e, linked.edges.get? id = some e → e.kind = .data :=
        fun id e found => (supplied.flows id e found).1
      have turned := ControlLinks.pass_opposed f closed last loopId blocks linked supplied.well.indexed data
      have leads := ControlLinks.pass_leads (f.loop loopId blocks) (Flow.postDominance f.link).dominates linked
        supplied.well
      dsimp only
      rw [passes, passes, data_pass_opposed, address_pass_opposed, Edit.run_bind_ok _ _ start linked _ linkRan,
        Edit.run_bind_ok _ _ start linked _ linkRan]
      cases ran : (ControlLinks.pass (f.loop loopId blocks) (Flow.postDominance f.link).dominates).run linked with
      | error error given =>
          rw [ran] at turned
          rw [Edit.run_bind_error _ _ linked given error ran, Edit.run_bind_error _ _ linked _ _ turned,
            Guise.turning_error]
          rfl
      | ok changed controlled =>
          rw [ran] at turned
          obtain ⟨finished, done, exchanged⟩ := finish_exchanged (f.loop loopId blocks)
            (Flow.postDominance f.link).dominates linked controlled supplied.well data
            (Edit.of_leads _ linked controlled changed leads ran).1
            (ControlLinks.pass_guarded _ _ linked controlled (Or.inl ⟨changed, ran⟩)) last
          rw [Edit.run_bind_ok _ _ linked controlled changed ran, Edit.run_bind_ok _ _ linked _ changed turned]
          unfold finish at done exchanged
          rw [done, exchanged]
          rfl

-- The arms of a branch are named by the order of its targets and by nothing else. With the two targets swapped, what
-- depends on one arm of the branch depends on the other one. The graph of every loop is the same but for the arms of
-- the control edges that leave from the branch, and a loop that has no graph has none for the same reason.
theorem arms_exchanged (f : Func) (closed : f.Closed) (branch first second : BlockId) (last : ValueId)
    (twoWay : f.link.succ branch = [first, second]) (ends : f.link.end? branch = some last) (loopId : Nat)
    (blocks : List BlockId) :
    let pdom := (Flow.postDominance f.link).dominates
    let swapped := (f.opposed last).link
    let pdomSwapped := (Flow.postDominance swapped).dominates
    swapped.succ branch = [second, first] ∧
      (∀ m, m < f.link.blocks.length → ControlLinks.dependsOn pdomSwapped [second, first] branch m =
        (ControlLinks.dependsOn pdom [first, second] branch m).map Bool.not) ∧
      construct ⟨loopId, swapped, blocks⟩ pdomSwapped =
        (construct ⟨loopId, f.link, blocks⟩ pdom).map fun g => g.exchanged last := by
  intro pdom swapped pdomSwapped
  have turned : swapped.succ branch = [second, first] := by
    rw [f.succ_opposed last branch, if_pos ends, twoWay]
    rfl
  refine ⟨turned, fun m inside => ?_, construct_opposed f closed last loopId blocks⟩
  have depends := ControlLinks.depends_on_opposed f closed last branch m (by rw [twoWay]; rfl) inside
  rwa [if_pos ends, twoWay, show (f.opposed last).link.succ branch = _ from turned] at depends

-- A loop with a choice in it, and the arms its control edges are marked with.
def fork : Func := Func.branches [[1], [2, 6], [3, 5], [4], [1], [1], []]

def armsOf : Except LoopError Graph → List (NodeId × NodeId × Dependence)
  | .ok g => g.edges.values.map fun e => (e.source, e.target, e.kind)
  | .error _ => []

theorem fork_exchanged :
    let pdom := (Flow.postDominance fork.link).dominates
    let swapped := (fork.opposed 2).link
    let pdomSwapped := (Flow.postDominance swapped).dominates
    fork.Closed ∧ fork.link.succ 2 = [3, 5] ∧ fork.link.end? 2 = some 2 ∧ swapped.succ 2 = [5, 3] ∧
      ControlLinks.dependsOn pdom [3, 5] 2 4 = some true ∧
      ControlLinks.dependsOn pdomSwapped [5, 3] 2 4 = some false ∧
      construct ⟨0, swapped, [1, 2, 3, 4, 5]⟩ pdomSwapped =
        (construct ⟨0, fork.link, [1, 2, 3, 4, 5]⟩ pdom).map (fun g => g.exchanged 2) ∧
      armsOf (construct ⟨0, fork.link, [1, 2, 3, 4, 5]⟩ pdom) =
        [(1, 2, .control true), (2, 3, .control true), (2, 4, .control true), (2, 5, .control false)] ∧
      armsOf (construct ⟨0, swapped, [1, 2, 3, 4, 5]⟩ pdomSwapped) =
        [(1, 2, .control true), (2, 3, .control false), (2, 4, .control false), (2, 5, .control true)] := by
  have closed : fork.Closed := by decide
  have twoWay : fork.link.succ 2 = [3, 5] := by decide
  have ends : fork.link.end? 2 = some 2 := by decide
  obtain ⟨turned, depends, same⟩ := arms_exchanged fork closed 2 3 5 2 twoWay ends 0 [1, 2, 3, 4, 5]
  have onFirst : ControlLinks.dependsOn (Flow.postDominance fork.link).dominates [3, 5] 2 4 = some true := by decide
  refine ⟨closed, twoWay, ends, turned, onFirst, ?_, same, by decide +kernel, by decide +kernel⟩
  rw [depends 4 (by decide), onFirst]
  rfl

end Graph

end LoopDeps
