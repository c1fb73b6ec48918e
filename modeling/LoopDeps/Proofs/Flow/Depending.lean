import LoopDeps.Proofs.Flow.Discovery
import LoopDeps.Proofs.Graph.Building
import LoopDeps.Proofs.Graph.Controlling
set_option autoImplicit false

/- Control dependence by ways. A block depends on an arm of a branch when the arm leads to it through blocks that
   all lead to it for certain, and the branch does not. Post-dominance over the first block of the arm is enough to
   tell, as long as that block can end at all. The linker takes the instructions of such a block for dependents of
   the branch, and every edge it draws to them is of that arm. -/
namespace LoopDeps.Flow

-- A way leads to some block without successors.
def CanEnd (f : Func) (b : BlockId) : Prop :=
  ∃ exit way, exit < f.blocks.length ∧ f.succ exit = [] ∧ Path f.succ b exit way

-- A way from `branch` over its successor `start` to `m`, certain from `start` on and not before.
structure DependsOver (f : Func) (branch m start : BlockId) : Prop where
  edge : start ∈ f.succ branch
  certain : ∃ way, Path f.succ start m way ∧ ∀ b ∈ way, PostDominates f m b
  avoidable : ¬PostDominates f m branch

section

variable (f : Func)

theorem post_dominates_self (m : BlockId) : PostDominates f m m :=
  fun exit way _ _ path => path_first f.succ m exit way path

theorem post_dominates_step (m b : BlockId) (branches : f.succ b ≠ [])
    (all : ∀ s ∈ f.succ b, PostDominates f m s) : PostDominates f m b := by
  intro exit way inside ends path
  cases path with
  | here => exact absurd ends branches
  | step _ s _ way edge path => exact List.mem_cons_of_mem b (all s edge exit way inside ends path)

-- What is met on every way out is met on each of them.
theorem post_dominates_reached (m b : BlockId) (canEnd : CanEnd f b) (certain : PostDominates f m b) :
    ∃ before, Path f.succ b m (before ++ [m]) ∧ m ∉ before := by
  obtain ⟨exit, way, inside, ends, path⟩ := canEnd
  obtain ⟨before, first, new, _⟩ := path_until f.succ b exit m way path (certain exit way inside ends path)
  exact ⟨before, first, new⟩

-- A way out of a block before the first visit of `m` goes on from a way to it that has not met `m`.
theorem post_dominates_before (m b c : BlockId) (before : List BlockId) (path : Path f.succ b m (before ++ [m]))
    (new : m ∉ before) (passed : c ∈ before) (certain : PostDominates f m b) : PostDominates f m c := by
  intro exit way inside ends rest
  obtain ⟨front, back, rfl⟩ := List.append_of_mem passed
  rw [List.append_assoc, List.cons_append] at path
  have toC := (path_split f.succ b m c front (back ++ [m]) path).1
  obtain ⟨whole, joined, members⟩ := path_trans f.succ b c exit (front ++ [c]) way toC rest
  have met := (members m).mp (certain exit whole inside ends joined)
  refine met.resolve_left fun early => new ?_
  rcases List.mem_append.mp early with inFront | same
  · exact List.mem_append_left (c :: back) inFront
  · exact List.mem_append_right front (List.mem_singleton.mp same ▸ List.mem_cons_self)

theorem certain_way (m b : BlockId) (canEnd : CanEnd f b) (certain : PostDominates f m b) :
    ∃ way, Path f.succ b m way ∧ ∀ c ∈ way, PostDominates f m c := by
  obtain ⟨before, path, new⟩ := post_dominates_reached f m b canEnd certain
  refine ⟨before ++ [m], path, fun c passed => ?_⟩
  rcases List.mem_append.mp passed with early | last
  · exact post_dominates_before f m b c before path new early certain
  · exact List.mem_singleton.mp last ▸ post_dominates_self f m

-- Behind a branch with all arms certain, its block is certain as well.
theorem not_over_both (branch m first second : BlockId) (two : f.succ branch = [first, second])
    (avoidable : ¬PostDominates f m branch) : ¬(PostDominates f m first ∧ PostDominates f m second) := by
  rintro ⟨left, right⟩
  refine avoidable (post_dominates_step f m branch (by simp [two]) fun s edge => ?_)
  rw [two, List.mem_cons, List.mem_singleton] at edge
  rcases edge with rfl | rfl
  · exact left
  · exact right

theorem depends_over_iff (branch m start : BlockId) (edge : start ∈ f.succ branch) (canEnd : CanEnd f start) :
    DependsOver f branch m start ↔ PostDominates f m start ∧ ¬PostDominates f m branch := by
  constructor
  · rintro ⟨_, ⟨way, path, all⟩, avoidable⟩
    exact ⟨all start (path_first f.succ start m way path), avoidable⟩
  · rintro ⟨certain, avoidable⟩
    exact ⟨edge, certain_way f m start canEnd certain, avoidable⟩

end

end LoopDeps.Flow

namespace LoopDeps.ControlLinks

theorem arm_of_two (pdom : PostDominates) (first second m : BlockId) :
    armOf pdom [first, second] m =
      if pdom m second then some false else if pdom m first then some true else none := by
  by_cases right : pdom m second = true <;> by_cases left : pdom m first = true <;>
    simp [armOf, List.zipIdx, left, right]

theorem depends_on_two (pdom : PostDominates) (first second branch m : BlockId) (other : m ≠ branch) :
    dependsOn pdom [first, second] branch m =
      if pdom m branch then none
      else if pdom m second then some false else if pdom m first then some true else none := by
  rw [dependsOn, if_neg other, arm_of_two]
  by_cases certain : pdom m branch = true <;> by_cases right : pdom m second = true <;>
    by_cases left : pdom m first = true <;> simp [certain, left, right]

section

variable (g : Graph) (terminator : NodeId) (arm : Bool) (progress : Progress)

-- The instructions are met as dependents on one arm of the branch that the terminator ends.
structure Met (values : List ValueId) (next : Progress) (after : Graph) : Prop where
  controlled : Controlled g after
  dependents : ∃ met, met.map some = values.map g.nodeOf? ∧ next.dependents = progress.dependents ++ met
  drawn : ∀ id e, after.edges.get? id = some e → g.edges.get? id = some e ∨
    (e.source = terminator ∧ e.kind = .control arm ∧ ∃ value ∈ values, g.nodeOf? value = some e.target)

theorem link_instr_meets (done : List ValueId) (state : Progress) (h : Graph)
    (held : Met g terminator arm progress done state h) (value : ValueId) :
    (linkInstr terminator arm state value).Leads h
      (fun next after => Met g terminator arm progress (done ++ [value]) next after) fun _ _ => True := by
  have values := (controlled_frame g h held.controlled).2
  obtain ⟨met, nodes, dependents⟩ := held.dependents
  have earlier : ∀ id e, h.edges.get? id = some e → g.edges.get? id = some e ∨
      (e.source = terminator ∧ e.kind = .control arm ∧ ∃ y ∈ done ++ [value], g.nodeOf? y = some e.target) :=
    fun id e found => (held.drawn id e found).imp_right fun ⟨source, kind, y, member, target⟩ =>
      ⟨source, kind, y, List.mem_append_left [value] member, target⟩
  refine Edit.leads_get _ h ?_
  cases here : h.nodeOf? value with
  | none => trivial
  | some x =>
      have known : g.nodeOf? value = some x := by rw [← here, Graph.nodeOf?, Graph.nodeOf?, values]
      have more : ∃ met, met.map some = (done ++ [value]).map g.nodeOf? ∧
          state.dependents ++ [x] = progress.dependents ++ met := by
        refine ⟨met ++ [x], ?_, by rw [dependents, List.append_assoc]⟩
        rw [List.map_append, List.map_append, nodes, List.map_singleton, List.map_singleton, known]
      by_cases fed : (state.dependents.any fun p => h.hasDataEdge p x) = true
      · simp only [fed, if_true]
        exact ⟨held.controlled, more, earlier⟩
      · simp only [fed, Bool.false_eq_true, if_false]
        refine Edit.leads_then _ _ h (Edit.add_edge_leads terminator x _ _ h) ?_
        rintro _ next ⟨source, target, rfl⟩
        refine ⟨.more h held.controlled terminator x arm _ source target, more, fun id e found => ?_⟩
        rw [Graph.get_attach_edge] at found
        split at found
        · cases found
          exact Or.inr ⟨rfl, rfl, value, List.mem_append_right done List.mem_cons_self, known⟩
        · exact earlier id e found

-- Where all of them have nodes, the linker meets the instructions of a block that depends on an arm.
theorem link_block_meets (body : Body) (pdom : PostDominates) (branch m : BlockId) (well : g.WellFormed)
    (present : ∃ n, g.nodes.get? terminator = some n) (covered : ∀ value ∈ instrsOf body m, HasNode g value)
    (depends : dependsOn pdom (body.func.succ branch) branch m = some arm) :
    ∃ next after, (linkBlock body pdom branch terminator progress m).run g = .ok next after ∧
      Met g terminator arm progress (instrsOf body m) next after := by
  have start : Met g terminator arm progress [] progress g :=
    ⟨.same, ⟨[], rfl, (List.append_nil _).symm⟩, fun _ _ found => Or.inl found⟩
  have meets := Edit.leads_fold_along (instrsOf body m) (linkInstr terminator arm) (Met g terminator arm progress)
    (fun done value _ _ state h held => link_instr_meets g terminator arm progress done state h held value) progress g start
  have leads := link_block_leads body pdom g g well .same branch terminator present progress m
  have folds : linkBlock body pdom branch terminator progress m =
      (instrsOf body m).foldlM (linkInstr terminator arm) progress := by
    simp only [linkBlock, depends]
    rfl
  rw [← folds] at meets
  cases ran : (linkBlock body pdom branch terminator progress m).run g with
  | ok next after => exact ⟨next, after, rfl, Edit.of_leads _ g after next meets ran⟩
  | error error after =>
      unfold Edit.Leads at leads
      rw [ran] at leads
      exact absurd covered leads.2

theorem link_block_skips (body : Body) (pdom : PostDominates) (branch m : BlockId)
    (apart : dependsOn pdom (body.func.succ branch) branch m = none) :
    (linkBlock body pdom branch terminator progress m).run g = .ok progress g := by
  simp only [linkBlock, apart]
  rfl

end

end LoopDeps.ControlLinks

namespace LoopDeps.Flow

open LoopDeps.ControlLinks

section

variable (f : Func) (linked : f.Linked)

include linked

theorem can_end_iff (b : BlockId) : CanEnd f b ↔ b ∈ reachable f f.prev f.exits := by
  have edges : ∀ a, ∀ c ∈ f.prev a, c < f.blocks.length := fun a c edge => f.prev_inside linked c a edge
  have roots : ∀ c ∈ f.exits, c < f.blocks.length := fun c root => ((f.mem_exits c).mp root).1
  rw [mem_reachable f f.prev f.exits edges roots]
  constructor
  · rintro ⟨exit, way, inside, ends, path⟩
    exact ⟨exit, (f.mem_exits exit).mpr ⟨inside, ends⟩, way.reverse, path_against f linked b exit way path⟩
  · rintro ⟨exit, root, way, path⟩
    obtain ⟨inside, ends⟩ := (f.mem_exits exit).mp root
    exact ⟨exit, way.reverse, inside, ends, path_along f linked exit b way path⟩

theorem loop_block_inside (l : Loop) (listed : l ∈ (LoopForest.ofFunc f).loops) (b : BlockId)
    (member : b ∈ l.blocks) : b < f.blocks.length :=
  reached_inside f linked b (gathered_reached f l.header l.blocks (forest_gathered f linked l listed) b member)

theorem depends_on_iff (branch m first second : BlockId) (branchInside : branch < f.blocks.length)
    (inside : m < f.blocks.length) (two : f.succ branch = [first, second]) (other : m ≠ branch) :
    (dependsOn (postDominance f).dominates (f.succ branch) branch m = some true ↔
        PostDominates f m first ∧ ¬PostDominates f m branch) ∧
      (dependsOn (postDominance f).dominates (f.succ branch) branch m = some false ↔
        PostDominates f m second ∧ ¬PostDominates f m branch) := by
  have onFirst : first < f.blocks.length := f.succ_inside linked branch first (by simp [two])
  have onSecond : second < f.blocks.length := f.succ_inside linked branch second (by simp [two])
  have notBoth := not_over_both f branch m first second two
  rw [← post_dominance_iff f linked m first inside onFirst, ← post_dominance_iff f linked m second inside onSecond,
    ← post_dominance_iff f linked m branch inside branchInside] at notBoth ⊢
  rw [two, depends_on_two _ first second branch m other]
  by_cases certain : (postDominance f).dominates m branch = true
  · simp [certain]
  · by_cases right : (postDominance f).dominates m second = true
    · have left : ¬(postDominance f).dominates m first = true := fun both => notBoth certain ⟨both, right⟩
      simp [certain, left, right]
    · by_cases left : (postDominance f).dominates m first = true <;> simp [certain, left, right]

-- The arm that the linker goes by, for any two blocks of a loop, and what it does with the instructions of the second.
theorem control_dependence_by_ways (ending : ∀ b, b < f.blocks.length → CanEnd f b) (l : Loop)
    (listed : l ∈ (LoopForest.ofFunc f).loops) (branch m first second : BlockId) (branchInside : branch ∈ l.blocks)
    (inside : m ∈ l.blocks) (two : f.succ branch = [first, second]) (other : m ≠ branch) :
    let arm := dependsOn (postDominance f).dominates (f.succ branch) branch m
    (arm ≠ none ↔ ∃ start, DependsOver f branch m start) ∧
      (arm = some true ↔ DependsOver f branch m first) ∧
      (arm = some false ↔ DependsOver f branch m second) ∧
      ¬(DependsOver f branch m first ∧ DependsOver f branch m second) ∧
      ∀ number g terminator progress,
        let body : Body := ⟨number, f, l.blocks⟩
        let linked := (linkBlock body (postDominance f).dominates branch terminator progress m).run g
        ((∀ start, ¬DependsOver f branch m start) → linked = .ok progress g) ∧
          (g.WellFormed → (∃ n, g.nodes.get? terminator = some n) → (∀ value ∈ instrsOf body m, HasNode g value) →
            (DependsOver f branch m first →
              ∃ next after, linked = .ok next after ∧ Met g terminator true progress (instrsOf body m) next after) ∧
            (DependsOver f branch m second →
              ∃ next after, linked = .ok next after ∧ Met g terminator false progress (instrsOf body m) next after)) := by
  intro arm
  have bound := loop_block_inside f linked l listed
  have arms : ∀ start ∈ f.succ branch,
      (DependsOver f branch m start ↔ PostDominates f m start ∧ ¬PostDominates f m branch) := fun start edge =>
    depends_over_iff f branch m start edge (ending start (f.succ_inside linked branch start edge))
  obtain ⟨onFirst, onSecond⟩ :=
    depends_on_iff f linked branch m first second (bound branch branchInside) (bound m inside) two other
  rw [← arms first (by simp [two])] at onFirst
  rw [← arms second (by simp [two])] at onSecond
  have decided : arm ≠ none ↔ ∃ start, DependsOver f branch m start := by
    constructor
    · intro depends
      obtain ⟨side, isArm⟩ := Option.ne_none_iff_exists'.mp depends
      cases side with
      | true => exact ⟨first, onFirst.mp isArm⟩
      | false => exact ⟨second, onSecond.mp isArm⟩
    · rintro ⟨start, depends⟩
      have edge := depends.edge
      rw [two, List.mem_cons, List.mem_singleton] at edge
      rcases edge with rfl | rfl
      · exact ne_of_eq_of_ne (onFirst.mpr depends) nofun
      · exact ne_of_eq_of_ne (onSecond.mpr depends) nofun
  refine ⟨decided, onFirst, onSecond, ?_, fun number g terminator progress => ⟨fun apart => ?_, ?_⟩⟩
  · rintro ⟨left, right⟩
    -- The linker goes by one arm.
    cases (onFirst.mpr left).symm.trans (onSecond.mpr right)
  · have independent : arm = none := Classical.not_not.mp fun depends => (decided.mp depends).elim apart
    exact link_block_skips g terminator progress ⟨number, f, l.blocks⟩ _ branch m independent
  · intro well present covered
    have meets := fun side => link_block_meets g terminator side progress ⟨number, f, l.blocks⟩
      (postDominance f).dominates branch m well present covered
    exact ⟨fun depends => meets true (onFirst.mpr depends), fun depends => meets false (onSecond.mpr depends)⟩

end

-- A loop around a choice: one arm is two blocks long.
def choice : Func := (Func.branches [[1], [2, 6], [3, 5], [4], [1], [1], []]).link

theorem long_arm_depends :
    choice.Linked ∧ (∀ b, b < choice.blocks.length → CanEnd choice b) ∧
      ∃ l ∈ (LoopForest.ofFunc choice).loops, 2 ∈ l.blocks ∧ 4 ∈ l.blocks ∧ choice.succ 2 = [3, 5] ∧
        dependsOn (postDominance choice).dominates (choice.succ 2) 2 4 = some true ∧
        DependsOver choice 2 4 3 ∧ ¬DependsOver choice 2 4 5 ∧
        ∃ g terminator next after, Graph.ofBody ⟨0, choice, l.blocks⟩ = .ok g ∧ g.nodeOf? 2 = some terminator ∧
          (linkBlock ⟨0, choice, l.blocks⟩ (postDominance choice).dominates 2 terminator ⟨[], 0⟩ 4).run g =
            .ok next after ∧
          Met g terminator true ⟨[], 0⟩ [4] next after := by
  have linked : choice.Linked := Func.linked_link _ (by decide)
  have ending : ∀ b, b < choice.blocks.length → CanEnd choice b := by
    intro b inside
    have all : ∀ b ∈ List.range choice.blocks.length, b ∈ reachable choice choice.prev choice.exits := by decide
    exact (can_end_iff choice linked b).mpr (all b (List.mem_range.mpr inside))
  have found : ∃ l ∈ (LoopForest.ofFunc choice).loops, l.blocks = [1, 2, 3, 4, 5] := by decide
  obtain ⟨l, listed, blocks⟩ := found
  have branchInside : 2 ∈ l.blocks := by simp [blocks]
  have inside : 4 ∈ l.blocks := by simp [blocks]
  have arm : dependsOn (postDominance choice).dominates (choice.succ 2) 2 4 = some true := by decide
  obtain ⟨_, onFirst, _, notBoth, links⟩ :=
    control_dependence_by_ways choice linked ending l listed 2 4 3 5 branchInside inside (by decide) (by decide)
  have depends := onFirst.mp arm
  refine ⟨linked, ending, l, listed, branchInside, inside, by decide, arm, depends,
    fun onSecond => notBoth ⟨depends, onSecond⟩, ?_⟩
  rw [blocks] at links ⊢
  rcases Graph.of_body_cases ⟨0, choice, [1, 2, 3, 4, 5]⟩ with ⟨nothing, _⟩ | ⟨_, g, started⟩
  · exact absurd nothing (by decide)
  have placed := Graph.of_body_placed _ g started
  obtain ⟨terminator, isEnd⟩ := (placed.values 2).mpr (by decide)
  obtain ⟨n, node, _⟩ := placed.well.indexed.valueNodes 2 terminator isEnd
  obtain ⟨next, after, ran, met⟩ := ((links 0 g terminator ⟨[], 0⟩).2 placed.well ⟨n, node⟩ fun value member =>
    (placed.values value).mpr (List.mem_singleton.mp member ▸ by decide)).1 depends
  exact ⟨g, terminator, next, after, started, isEnd, ran, met⟩

end LoopDeps.Flow
