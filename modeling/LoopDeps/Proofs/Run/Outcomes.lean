import LoopDeps.Proofs.Graph.Stages
import LoopDeps.Proofs.IR.Built
import LoopDeps.Run.Process
set_option autoImplicit false

/- What becomes of a loop, when no file is refused: it is skipped, or fails at its first wide branch, or is
   written with a size that can be told from its instructions. -/
namespace LoopDeps

namespace Body

-- The values used in the body and made outside of it.
def externals (body : Body) : Finset ValueId := body.dataOperands.toFinset \ body.ids.toFinset

def addresses (body : Body) : Nat := body.instrs.countP fun i => i.instr.kind == .address

theorem mem_ids (body : Body) (m : BlockId) (listed : m ∈ body.blocks) (block : Block)
    (here : body.func.block? m = some block) (value : ValueId) (inBlock : value ∈ block.instrs)
    (instr : Instr) (defined : body.func.instr? value = some instr) : value ∈ body.ids := by
  refine List.mem_map.mpr ⟨⟨value, instr, block.weight⟩, ?_, rfl⟩
  refine List.mem_flatMap.mpr ⟨block, List.mem_filterMap.mpr ⟨m, listed, here⟩, ?_⟩
  exact List.mem_filterMap.mpr ⟨value, inBlock, by rw [defined, Option.map_some]⟩

theorem listed_in_ids (body : Body) (sound : body.func.Sound) (m : BlockId) (listed : m ∈ body.blocks)
    (value : ValueId) (inBlock : value ∈ ControlLinks.instrsOf body m) : value ∈ body.ids := by
  unfold ControlLinks.instrsOf at inBlock
  cases here : body.func.block? m with
  | none => simp [here] at inBlock
  | some block =>
      rw [here, Option.elim_some] at inBlock
      obtain ⟨instr, defined⟩ := sound.listed block (List.mem_of_getElem? here) value inBlock
      exact body.mem_ids m listed block here value inBlock instr defined

end Body

namespace Graph

theorem covered_linked (body : Body) (sound : body.func.Sound) (start linked : Graph)
    (placed : Placed body.instrs start) (uses : List ValueId) (links : Nat)
    (supplied : DataLinks.Supplied body.func start uses links linked) : ControlLinks.Covered body linked := by
  intro m listed value inBlock
  have inBody := body.listed_in_ids sound m listed value inBlock
  exact (supplied.values value).mpr (Or.inl ((placed.values value).mpr inBody))

theorem ended_of_sound (body : Body) (sound : body.func.Sound) : ControlLinks.Ended body :=
  fun _ _ block here => sound.ended block (List.mem_of_getElem? here)

theorem newcomers_externals (body : Body) (start : Graph) (placed : Placed body.instrs start) :
    DataLinks.newcomers start body.dataOperands = body.externals := by
  ext value
  rw [DataLinks.newcomers, Body.externals, Finset.mem_filter, Finset.mem_sdiff, List.mem_toFinset,
    List.mem_toFinset, Body.ids, ← placed.values value]
  refine and_congr_right fun _ => ?_
  rw [Option.eq_none_iff_forall_ne_some, not_exists]

open AddressChains

theorem address_unlisted (f : Func) {n m : Node} (same : n.unlisted = m.unlisted) :
    isAddress f n = isAddress f m := by
  have seen := congrArg (isAddress f) same
  exact seen

theorem staged_placed (body : Body) (start : Graph) (placed : Placed body.instrs start) :
    (staged body.func start).length = body.addresses := by
  have seen : start.nodes.values.map (isAddress body.func) =
      body.instrs.map fun i => i.instr.kind == .address := by
    rw [placed.nodes]
    apply List.ext_getElem
    · simp
    · intro position _ mapped
      have bound : position < body.instrs.length := by simpa using mapped
      have inBody : body.instrs[position] ∈ body.instrs := List.getElem_mem bound
      simp [isAddress, Node.isPlain, nodeOf, Node.instruction, body.instr_defined _ inBody]
  have counted := congrArg (List.countP id) seen
  rw [List.countP_map, List.countP_map] at counted
  rw [staged, List.length_map, ← List.countP_eq_length_filter]
  exact counted

-- Neither data links nor control links bring or take an address computation.
theorem staged_controlled (f : Func) (start linked controlled : Graph) (well : start.WellFormed)
    (uses : List ValueId) (links : Nat) (supplied : DataLinks.Supplied f start uses links linked)
    (added : Controlled linked controlled) : (staged f controlled).length = (staged f start).length := by
  have wellControlled := ControlLinks.controlled_well_formed linked controlled supplied.well added
  refine List.Perm.length_eq ((List.perm_ext_iff_of_nodup (staged_nodup f controlled wellControlled.indexed)
    (staged_nodup f start well.indexed)).mpr fun id => ?_)
  rw [mem_staged f controlled wellControlled.indexed, mem_staged f start well.indexed]
  have same := ControlLinks.controlled_nodes linked controlled added id
  constructor
  · rintro ⟨n, node, address⟩
    obtain ⟨m, found, unlisted⟩ := node_of_same controlled linked id n same.symm node
    rcases supplied.outside id m found with ⟨old, first⟩ | ⟨_, kind, _⟩
    · obtain ⟨m', again, sameOld⟩ := supplied.kept id old first
      cases Option.some.inj (found.symm.trans again)
      exact ⟨old, first, (address_unlisted f (unlisted.symm.trans sameOld)).symm.trans address⟩
    · have plain := (address_plain f n address).1
      rw [(Node.same_of_unlisted unlisted.symm).2.1, kind] at plain
      cases plain
  · rintro ⟨old, first, address⟩
    obtain ⟨m, found, sameOld⟩ := supplied.kept id old first
    obtain ⟨n, node, unlisted⟩ := node_of_same linked controlled id m same found
    exact ⟨n, node, (address_unlisted f (unlisted.trans sameOld)).trans address⟩

end Graph

theorem write_all_accepts (files : List (String × String)) (sink : Sink)
    (accepts : ∀ name, sink.refusal name = none) : (sink.writeAll files).2 = none := by
  induction files generalizing sink with
  | nil => rfl
  | cons file rest ih =>
      obtain ⟨name, text⟩ := file
      simp only [Sink.writeAll, Sink.write, accepts]
      exact ih _ accepts

namespace Graph

theorem completed_size (body : Body) (pdom : ControlLinks.PostDominates)
    (start linked controlled middle finished : Graph) (placed : Placed body.instrs start)
    (completed : Completed body pdom start linked controlled middle finished) :
    finished.size = body.instrs.length + body.externals.card + 3 * body.addresses ∧
      finished.edges.size = body.dataOperands.length + ControlLinks.controls controlled + 3 * body.addresses := by
  have supplied := completed.supplied
  have wellControlled := ControlLinks.controlled_well_formed linked controlled supplied.well completed.added
  obtain ⟨_, size, edgeCount⟩ :=
    AddressChains.unfolded_removed body.func controlled middle wellControlled completed.unfolded
  have addresses := (staged_controlled body.func start linked controlled placed.well _ _ supplied
    completed.added).trans (staged_placed body start placed)
  have noControls : ControlLinks.controls linked = 0 := by
    refine List.countP_eq_zero.mpr fun e member => ?_
    obtain ⟨id, found⟩ := Table.mem_values.mp member
    rw [(supplied.flows id e found).1]
    exact nofun
  have counted := ControlLinks.controlled_size linked controlled supplied.well completed.added
  have linkedSize := supplied.size
  rw [newcomers_externals body start placed, placed_size body.instrs start placed] at linkedSize
  have sameSize := (ControlLinks.controlled_frame linked controlled completed.added).1
  have annotated : finished.size = (AddressChains.withoutStaged body.func controlled middle).size := by
    rw [completed.last]
    exact Table.size_map _ _
  have annotatedEdges : finished.edges.size = (AddressChains.withoutStaged body.func controlled middle).edges.size := by
    rw [completed.last]
    exact Table.size_map _ _
  rw [noControls, supplied.links] at counted
  constructor
  · rw [annotated, size, addresses, sameSize, linkedSize]
  · rw [annotatedEdges, edgeCount, addresses]
    omega

end Graph

-- The report of a loop of a built function.
theorem outcome_determined (options : Options) (sink : Sink) (body : Body) (pdom : ControlLinks.PostDominates)
    (built : body.func.Built) (accepts : ∀ name, sink.refusal name = none) :
    let outcome := (processLoop options sink body pdom).2.outcome
    (body.instrs = [] ∧ outcome = .skipped ("loop " ++ toString body.loopId ++ " has no instructions")) ∨
      (body.instrs ≠ [] ∧ ∃ block, ControlLinks.FirstWide body body.blocks block ∧
        outcome = .failed ("loop " ++ toString body.loopId ++ ": block '" ++ block.label ++ "' has " ++
          toString block.succ.length ++ " successors, at most 2 are supported")) ∨
      (body.instrs ≠ [] ∧ (∀ m ∈ body.blocks, ∀ block, ¬ControlLinks.Wide body m block) ∧
        ∃ controlled finished, (Graph.history body pdom)[2]? = some controlled ∧
          (Graph.history body pdom)[4]? = some finished ∧
          outcome = .written (body.instrs.length + body.externals.card + 3 * body.addresses)
            (body.dataOperands.length + ControlLinks.controls controlled + 3 * body.addresses)
            (finished.edges.values.countP Edge.backedge)) := by
  have sound := Func.built_sound body.func built
  intro outcome
  have same : outcome = (writeLoop options sink body pdom).2 := rfl
  rw [same]
  rcases Graph.of_body_cases body with ⟨nothing, empty⟩ | ⟨something, start, started⟩
  · refine Or.inl ⟨nothing, ?_⟩
    simp only [writeLoop, Graph.construct, empty]
    rfl
  · have placed := Graph.of_body_placed body start started
    rcases Graph.stages_cases body pdom start started with
      ⟨linked, controlled, middle, finished, completed⟩ | ⟨linked, controlled, error, givenUp⟩
    · obtain ⟨nodes, edges⟩ := Graph.completed_size body pdom start linked controlled middle finished placed completed
      have constructed : Graph.construct body pdom = .ok finished := by
        simp only [Graph.construct, started, completed.ran]
      have graphs := (Graph.history_of_body body pdom start started).trans completed.graphs
      refine Or.inr (Or.inr ⟨something, completed.narrow, controlled, finished, by rw [graphs]; rfl,
        by rw [graphs]; rfl, ?_⟩)
      have accepted := write_all_accepts (options.artifacts finished) sink accepts
      cases stored : sink.writeAll (options.artifacts finished) with
      | mk files refused =>
          rw [stored] at accepted
          cases accepted
          simp only [writeLoop, constructed, stored, Outcome.ofGraph, nodes, edges]
    · obtain ⟨block, first, cause⟩ := givenUp.cause
        (Graph.covered_linked body sound start linked placed _ _ givenUp.supplied)
        (Graph.ended_of_sound body sound)
      refine Or.inr (Or.inl ⟨something, block, first, ?_⟩)
      simp only [writeLoop, Graph.construct, started, givenUp.ran, cause]
      rfl

-- A walk through memory that goes on for as long as something other than zero is found.
def walking : Func :=
  let entry := ((Func.new "walk").addBlock "entry" Func.defaultWeight).1
  let blocks := (((entry.addBlock "loop" Func.defaultWeight).1.addBlock "next" Func.defaultWeight).1.addBlock "exit"
    Func.defaultWeight).1
  let values := (((blocks.addArgument "base" .ptr).1.constant "0").1.constant "1").1
  let instrs : List Instr :=
    [⟨none, "br", .void, [], [1], 0⟩,
      ⟨some "i", "phi", .int 32, [1, 8], [], 1⟩,
      ⟨some "p", "getelementptr", .ptr, [0, 4], [], 1⟩,
      ⟨some "x", "load", .int 32, [5], [], 1⟩,
      ⟨none, "br", .void, [6], [2, 3], 1⟩,
      ⟨some "j", "add", .int 32, [4, 2], [], 2⟩,
      ⟨none, "br", .void, [], [1], 2⟩,
      ⟨none, "ret", .void, [], [], 3⟩]
  (instrs.foldl (fun f instr => (f.push instr).1) values).link

theorem walking_built : walking.Built := by
  refine .link _ (Func.built_pushes _ _ (.constant _ _ (.constant _ _ (.addArgument _ _ _ (.addBlock _ _ _
    (.addBlock _ _ _ (.addBlock _ _ _ (.addBlock _ _ _ (.new _)))))))) ?_) ?_
  all_goals decide

-- A block that leads to itself and, twice, to another.
def forking : Func :=
  let blocks := (((Func.new "fork").addBlock "loop" Func.defaultWeight).1.addBlock "exit" Func.defaultWeight).1
  (((blocks.constant "1").1.push ⟨none, "br", .void, [0], [0, 1, 1], 0⟩).1.push ⟨none, "ret", .void, [], [], 1⟩).1.link

theorem forking_built : forking.Built := by
  refine .link _ (.push _ _ (.push _ _ (.constant _ _ (.addBlock _ _ _ (.addBlock _ _ _ (.new _)))) ?_) ?_) ?_
  all_goals decide

-- What comes of the loop in `walking`, of the one in `forking`, and of no blocks.
theorem outcomes_of_walking_and_forking :
    walking.Built ∧ forking.Built ∧
      (let body : Body := ⟨0, walking, [1, 2]⟩
        let pdom := (Flow.postDominance walking).dominates
        (processLoop Options.default ⟨[], fun _ => none⟩ body pdom).2.outcome = .written 12 13 1 ∧
          body.instrs.length = 6 ∧ body.externals.card = 3 ∧ body.addresses = 1 ∧ body.dataOperands.length = 8 ∧
          ∃ controlled finished, (Graph.history body pdom)[2]? = some controlled ∧
            (Graph.history body pdom)[4]? = some finished ∧ ControlLinks.controls controlled = 2 ∧
            finished.edges.values.countP Edge.backedge = 1) ∧
      (processLoop Options.default ⟨[], fun _ => none⟩ ⟨1, forking, [0]⟩ fun _ _ => false).2.outcome =
        .failed "loop 1: block 'loop' has 3 successors, at most 2 are supported" ∧
      (processLoop Options.default ⟨[], fun _ => none⟩ ⟨2, forking, []⟩ fun _ _ => false).2.outcome =
        .skipped "loop 2 has no instructions" := by
  refine ⟨walking_built, forking_built, ?_, ?_, ?_⟩
  · have outcome : (processLoop Options.default ⟨[], fun _ => none⟩ ⟨0, walking, [1, 2]⟩
        (Flow.postDominance walking).dominates).2.outcome = .written 12 13 1 := by decide +kernel
    have operands : (Body.dataOperands ⟨0, walking, [1, 2]⟩).length = 8 := by decide +kernel
    have addresses : Body.addresses ⟨0, walking, [1, 2]⟩ = 1 := by decide +kernel
    refine ⟨outcome, by decide +kernel, by decide +kernel, addresses, operands, ?_⟩
    rcases outcome_determined Options.default ⟨[], fun _ => none⟩ ⟨0, walking, [1, 2]⟩
      (Flow.postDominance walking).dominates walking_built (fun _ => rfl) with
      ⟨_, skipped⟩ | ⟨_, _, _, failed⟩ | ⟨_, _, controlled, finished, third, fifth, written⟩
    · rw [outcome] at skipped
      cases skipped
    · rw [outcome] at failed
      cases failed
    · rw [outcome, operands, addresses] at written
      obtain ⟨_, edges, backedges⟩ := Outcome.written.inj written
      exact ⟨controlled, finished, third, fifth, by omega, backedges.symm⟩
  · have here : (forking.block? 0).map (fun block => (block.label, block.succ.length)) = some ("loop", 3) := by decide
    obtain ⟨wide, found, read⟩ := Option.map_eq_some_iff.mp here
    obtain ⟨label, three⟩ := Prod.mk.inj read
    rcases outcome_determined Options.default ⟨[], fun _ => none⟩ ⟨1, forking, [0]⟩ (fun _ _ => false) forking_built
      (fun _ => rfl) with
      ⟨nothing, _⟩ | ⟨_, block, ⟨before, branch, after, split, first, _⟩, failed⟩ | ⟨_, narrow, _⟩
    · exact absurd nothing (by decide)
    · have split : [0] = before ++ branch :: after := split
      have listed : branch ∈ [0] := by simp [split]
      cases Option.some.inj (found.symm.trans (List.mem_singleton.mp listed ▸ first.1))
      rw [failed, label, three]
      rfl
    · exact absurd ⟨found, three ▸ Nat.lt_succ_self 2⟩ (narrow 0 List.mem_cons_self wide)
  · rcases outcome_determined Options.default ⟨[], fun _ => none⟩ ⟨2, forking, []⟩ (fun _ _ => false) forking_built
      (fun _ => rfl) with ⟨_, skipped⟩ | ⟨something, _⟩ | ⟨something, _⟩
    · exact skipped
    · exact absurd rfl something
    · exact absurd rfl something

end LoopDeps
