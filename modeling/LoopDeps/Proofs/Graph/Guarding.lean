import LoopDeps.Proofs.Flow.Depending
import LoopDeps.Proofs.Graph.Stages
set_option autoImplicit false

/- Where control edges come from. Each one leads from the end of a branch to an instruction of a block that depends
   on the arm it is marked with. In a loop that arm leads on to the block, unless nothing behind it can end. -/
namespace LoopDeps.ControlLinks

-- The node stands for the end of a two-way branch.
structure Branches (body : Body) (g : Graph) (branch : BlockId) (terminator : NodeId) : Prop where
  listed : branch ∈ body.blocks
  twoWay : (body.func.succ branch).length = 2
  last : ∃ last, (instrsOf body branch).getLast? = some last ∧ g.nodeOf? last = some terminator

-- The edge leads from there to an instruction of `m`, which depends on the arm that the edge is marked with.
structure Guards (body : Body) (pdom : PostDominates) (g : Graph) (branch m : BlockId) (arm : Bool) (e : Edge) :
    Prop where
  branches : Branches body g branch e.source
  listed : m ∈ body.blocks
  depends : dependsOn pdom (body.func.succ branch) branch m = some arm
  kind : e.kind = .control arm
  target : ∃ value ∈ instrsOf body m, g.nodeOf? value = some e.target

-- The graph with nothing but such edges more.
structure Guarded (body : Body) (pdom : PostDominates) (g h : Graph) : Prop where
  byValue : h.byValue = g.byValue
  edges : ∀ id e, h.edges.get? id = some e →
    g.edges.get? id = some e ∨ ∃ branch m arm, Guards body pdom g branch m arm e

theorem guarded_refl (body : Body) (pdom : PostDominates) (g : Graph) : Guarded body pdom g g :=
  ⟨rfl, fun _ _ found => Or.inl found⟩

theorem guarded_attach (body : Body) (pdom : PostDominates) (g h : Graph) (guarded : Guarded body pdom g h)
    (branch m : BlockId) (arm : Bool) (source target : NodeId) (weight : Float)
    (guards : Guards body pdom g branch m arm (h.newEdge source target (.control arm) weight)) :
    Guarded body pdom g (Edit.attach h source target (.control arm) weight) := by
  refine ⟨guarded.byValue, fun id e found => ?_⟩
  rw [Graph.get_attach_edge] at found
  split at found
  · cases found
    exact Or.inr ⟨branch, m, arm, guards⟩
  · exact guarded.edges id e found

theorem add_edge_leads (g : Graph) (source target : NodeId) (kind : Dependence) (weight : Float) :
    (Edit.addEdge source target kind weight).Leads g
      (fun _ next => next = Edit.attach g source target kind weight) fun _ next => next = g := by
  by_cases here : g.nodes.contains source = true
  · by_cases there : g.nodes.contains target = true
    · exact Edit.leads_of_ok _ g _ _
        (Edit.add_edge_run source target kind weight g (Table.contains_iff.mp here) (Table.contains_iff.mp there)) rfl
    · simp [Edit.Leads, Edit.addEdge, Edit.missing_run, here, there]
  · simp [Edit.Leads, Edit.addEdge, Edit.missing_run, here]

section

variable (body : Body) (pdom : PostDominates) (g : Graph)

theorem link_instr_guarded (h : Graph) (guarded : Guarded body pdom g h) (branch m : BlockId) (arm : Bool)
    (terminator : NodeId) (progress : Progress) (value : ValueId) (branches : Branches body g branch terminator)
    (listed : m ∈ body.blocks) (depends : dependsOn pdom (body.func.succ branch) branch m = some arm)
    (member : value ∈ instrsOf body m) :
    (linkInstr terminator arm progress value).Leads h (fun _ next => Guarded body pdom g next)
      fun _ next => Guarded body pdom g next := by
  refine Edit.leads_get _ h ?_
  cases known : h.nodeOf? value with
  | none => exact guarded
  | some x =>
      by_cases fed : (progress.dependents.any fun p => h.hasDataEdge p x) = true
      · simp only [fed, if_true]
        exact guarded
      · simp only [fed, Bool.false_eq_true, if_false]
        have here : g.nodeOf? value = some x := by rw [← known, Graph.nodeOf?, Graph.nodeOf?, guarded.byValue]
        have guards : Guards body pdom g branch m arm (h.newEdge terminator x (.control arm) (h.weightOf x)) :=
          ⟨branches, listed, depends, rfl, value, member, here⟩
        refine Edit.leads_bind _ _ h (add_edge_leads h terminator x (.control arm) (h.weightOf x)) ?_ ?_
        · rintro _ next rfl
          exact guarded
        · rintro _ next rfl
          exact guarded_attach body pdom g h guarded branch m arm terminator x (h.weightOf x) guards

theorem link_block_guarded (h : Graph) (guarded : Guarded body pdom g h) (branch m : BlockId) (terminator : NodeId)
    (progress : Progress) (branches : Branches body g branch terminator) (listed : m ∈ body.blocks) :
    (linkBlock body pdom branch terminator progress m).Leads h (fun _ next => Guarded body pdom g next)
      fun _ next => Guarded body pdom g next := by
  unfold linkBlock
  cases depends : dependsOn pdom (body.func.succ branch) branch m with
  | none => exact guarded
  | some arm =>
      refine Edit.leads_fold (instrsOf body m) _ (Guarded body pdom g) _ ?_ progress h guarded
      intro value member state next before
      exact link_instr_guarded body pdom g next before branch m arm terminator state value branches listed depends
        member

theorem link_branch_guarded (h : Graph) (guarded : Guarded body pdom g h) (branch : BlockId)
    (branchListed : branch ∈ body.blocks) :
    (linkBranch body pdom branch).Leads h (fun _ next => Guarded body pdom g next)
      fun _ next => Guarded body pdom g next := by
  unfold linkBranch
  cases here : body.func.block? branch with
  | none => exact guarded
  | some block =>
      dsimp only
      by_cases wide : block.succ.length > 2
      · rw [if_pos wide]
        exact guarded
      rw [if_neg wide]
      by_cases short : block.succ.length < 2
      · rw [if_pos short]
        exact guarded
      rw [if_neg short]
      apply Edit.leads_get
      cases last : block.instrs.getLast?.bind h.nodeOf? with
      | none => exact guarded
      | some terminator =>
          obtain ⟨value, isLast, known⟩ := Option.bind_eq_some_iff.mp last
          rw [Graph.nodeOf?, guarded.byValue] at known
          have branches : Branches body g branch terminator := by
            refine ⟨branchListed, ?_, value, ?_, known⟩
            · rw [Func.succ, here, Option.elim_some]
              omega
            · rw [instrsOf, here, Option.elim_some, isLast]
          refine Edit.leads_bind _ _ h (Edit.leads_fold body.blocks (linkBlock body pdom branch terminator)
            (Guarded body pdom g) _ ?_ ⟨[], 0⟩ h guarded) (fun _ _ failed => failed) fun _ _ held => held
          intro m listed state next before
          exact link_block_guarded body pdom g next before branch m terminator state branches listed

theorem link_branches_guarded (blocks : List BlockId) (listed : ∀ branch ∈ blocks, branch ∈ body.blocks) (h : Graph)
    (guarded : Guarded body pdom g h) :
    (linkBranches body pdom blocks).Leads h (fun _ next => Guarded body pdom g next)
      fun _ next => Guarded body pdom g next := by
  induction blocks generalizing h with
  | nil => exact guarded
  | cons branch rest ih =>
      refine Edit.leads_bind _ _ h
        (link_branch_guarded body pdom g h guarded branch (listed branch List.mem_cons_self))
        (fun _ _ failed => failed) fun _ next held => ?_
      refine Edit.leads_bind _ _ next (ih (fun other member => listed other (List.mem_cons_of_mem _ member)) next held)
        (fun _ _ failed => failed) fun _ _ after => after

-- Whether the pass ends well or gives up, it adds no other edges.
theorem pass_guarded (next : Graph)
    (ran : (∃ added, (pass body pdom).run g = .ok added next) ∨ ∃ error, (pass body pdom).run g = .error error next) :
    Guarded body pdom g next := by
  have leads : (pass body pdom).Leads g (fun _ next => Guarded body pdom g next)
      fun _ next => Guarded body pdom g next :=
    Edit.leads_bind _ _ g
      (link_branches_guarded body pdom g body.blocks (fun _ member => member) g (guarded_refl body pdom g))
      (fun _ _ failed => failed) fun _ _ held => held
  unfold Edit.Leads at leads
  rcases ran with ⟨added, ran⟩ | ⟨error, ran⟩
  · rwa [ran] at leads
  · rwa [ran] at leads

end

theorem depends_other (pdom : PostDominates) (succ : List BlockId) (branch m : BlockId) (arm : Bool)
    (depends : dependsOn pdom succ branch m = some arm) : m ≠ branch := by
  rintro rfl
  simp [dependsOn] at depends

-- The successor that an arm is named for.
def armStart (succ : List BlockId) (arm : Bool) : Option BlockId := if arm then succ[0]? else succ[1]?

open LoopDeps.Flow

section

variable (f : Func) (linked : f.Linked)

include linked

theorem depends_certain (branch m : BlockId) (arm : Bool) (branchInside : branch < f.blocks.length)
    (inside : m < f.blocks.length) (twoWay : (f.succ branch).length = 2)
    (depends : dependsOn (postDominance f).dominates (f.succ branch) branch m = some arm) :
    ∃ start ∈ f.succ branch, armStart (f.succ branch) arm = some start ∧ Flow.PostDominates f m start ∧
      ¬Flow.PostDominates f m branch := by
  obtain ⟨first, second, two⟩ := List.length_eq_two.mp twoWay
  obtain ⟨onFirst, onSecond⟩ := depends_on_iff f linked branch m first second branchInside inside two
    (depends_other _ _ branch m arm depends)
  cases arm with
  | true => exact ⟨first, by simp [two], by simp [armStart, two], onFirst.mp depends⟩
  | false => exact ⟨second, by simp [two], by simp [armStart, two], onSecond.mp depends⟩

-- The branch gets out of the loop somewhere, so that every block of the loop does.
theorem loop_block_can_end (l : Loop) (listed : l ∈ (LoopForest.ofFunc f).loops) (branch m : BlockId)
    (branchInside : branch ∈ l.blocks) (inside : m ∈ l.blocks) (avoidable : ¬Flow.PostDominates f m branch) :
    CanEnd f m := by
  have gathered := forest_gathered f linked l listed
  obtain ⟨back, path, _⟩ := gathered_connected f l.header l.blocks gathered m branch inside branchInside
  have out : CanEnd f branch := by
    refine Classical.byContradiction fun never => avoidable fun exit way exitInside ends rest => ?_
    exact absurd ⟨exit, way, exitInside, ends, rest⟩ never
  obtain ⟨exit, way, exitInside, ends, rest⟩ := out
  obtain ⟨whole, joined, _⟩ := path_trans f.succ m branch exit back way path rest
  exact ⟨exit, whole, exitInside, ends, joined⟩

theorem arm_leads_iff (l : Loop) (listed : l ∈ (LoopForest.ofFunc f).loops) (branch m start : BlockId)
    (branchInside : branch ∈ l.blocks) (inside : m ∈ l.blocks) (certain : Flow.PostDominates f m start)
    (avoidable : ¬Flow.PostDominates f m branch) : (∃ way, Path f.succ start m way) ↔ CanEnd f start := by
  constructor
  · rintro ⟨way, path⟩
    obtain ⟨exit, more, exitInside, ends, rest⟩ :=
      loop_block_can_end f linked l listed branch m branchInside inside avoidable
    obtain ⟨whole, joined, _⟩ := path_trans f.succ start m exit way more path rest
    exact ⟨exit, whole, exitInside, ends, joined⟩
  · intro canEnd
    obtain ⟨before, path, _⟩ := post_dominates_reached f m start canEnd certain
    exact ⟨before ++ [m], path⟩

theorem guards_lead (l : Loop) (listed : l ∈ (LoopForest.ofFunc f).loops) (loopId : Nat) (g : Graph)
    (branch m : BlockId) (arm : Bool) (e : Edge)
    (guards : Guards ⟨loopId, f, l.blocks⟩ (postDominance f).dominates g branch m arm e) :
    ∃ start, armStart (f.succ branch) arm = some start ∧ ((∃ way, Path f.succ start m way) ↔ CanEnd f start) := by
  have bound := loop_block_inside f linked l listed
  obtain ⟨start, _, isStart, certain, avoidable⟩ := depends_certain f linked branch m arm
    (bound branch guards.branches.listed) (bound m guards.listed) guards.branches.twoWay guards.depends
  exact ⟨start, isStart,
    arm_leads_iff f linked l listed branch m start guards.branches.listed guards.listed certain avoidable⟩

-- A control edge that is added for a loop follows an arm that leads on to its target, as long as anything
-- behind that arm can end.
theorem control_edges_follow_arms (l : Loop) (listed : l ∈ (LoopForest.ofFunc f).loops) (loopId : Nat)
    (g next : Graph) :
    let body : Body := ⟨loopId, f, l.blocks⟩
    let pdom := (postDominance f).dominates
    ((∃ added, (pass body pdom).run g = .ok added next) ∨ ∃ error, (pass body pdom).run g = .error error next) →
      ∀ id e, next.edges.get? id = some e → g.edges.get? id = some e ∨
        (∃ branch m arm, Guards body pdom g branch m arm e) ∧
          ∀ branch m arm, Guards body pdom g branch m arm e →
            ∃ start, armStart (f.succ branch) arm = some start ∧
              ((∃ way, Path f.succ start m way) ↔ CanEnd f start) := by
  intro body pdom ran id e found
  refine ((pass_guarded body pdom g next ran).edges id e found).imp_right fun guarded => ⟨guarded, ?_⟩
  exact fun branch m arm guards => guards_lead f linked l listed loopId g branch m arm e guards

end

-- Control links on the graph of a body whose data links are made.
structure Links (body : Body) (pdom : PostDominates) (g next : Graph) : Prop where
  supplied : DataLinks.supplied? body = some g
  ran : ∃ added, (pass body pdom).run g = .ok added next

-- Whether the pass adds an edge between the nodes of two values for an arm.
def addsEdge (body : Body) (pdom : PostDominates) (source target : ValueId) (arm : Bool) : Bool :=
  match DataLinks.supplied? body with
  | none => false
  | some g =>
      match (pass body pdom).run g with
      | .error _ _ => false
      | .ok _ next =>
          g.edges.values.isEmpty && next.edges.values.any fun e =>
            e.kind == .control arm && g.nodeOf? source == some e.source && g.nodeOf? target == some e.target

theorem adds_edge (body : Body) (pdom : PostDominates) (source target : ValueId) (arm : Bool)
    (adds : addsEdge body pdom source target arm = true) :
    ∃ g next id e, Links body pdom g next ∧ next.edges.get? id = some e ∧ g.edges.get? id = none ∧
      e.kind = .control arm ∧ g.nodeOf? source = some e.source ∧ g.nodeOf? target = some e.target := by
  unfold addsEdge at adds
  split at adds
  · cases adds
  · rename_i g supplied
    split at adds
    · cases adds
    · rename_i added next ran
      simp only [Bool.and_eq_true, List.isEmpty_iff, List.any_eq_true, beq_iff_eq] at adds
      obtain ⟨nothing, e, member, ⟨kind, sourceNode⟩, targetNode⟩ := adds
      obtain ⟨id, found⟩ := Table.mem_values.mp member
      have new : g.edges.get? id = none := by
        refine Option.eq_none_iff_forall_ne_some.mpr fun old there => ?_
        simpa [nothing] using Table.mem_values.mpr ⟨id, there⟩
      exact ⟨g, next, id, e, ⟨supplied, added, ran⟩, found, new, kind, sourceNode, targetNode⟩

-- A loop of three branches. One arm of the first leads into a block that runs forever.
def sideways : Func := (Func.branches [[1], [4, 2], [3, 5], [1], [4], []]).link

theorem sideways_linked : sideways.Linked := Func.linked_link _ (by decide)

theorem sideways_adds : addsEdge ⟨0, sideways, [1, 2, 3]⟩ (postDominance sideways).dominates 1 3 true = true := by
  decide +kernel

theorem sideways_guards : ∃ l ∈ (LoopForest.ofFunc sideways).loops, ∃ g next id e,
    Links ⟨0, sideways, l.blocks⟩ (postDominance sideways).dominates g next ∧ next.edges.get? id = some e ∧
      g.edges.get? id = none ∧ Guards ⟨0, sideways, l.blocks⟩ (postDominance sideways).dominates g 1 3 true e := by
  have loop : ∃ l ∈ (LoopForest.ofFunc sideways).loops, l.blocks = [1, 2, 3] := by decide
  obtain ⟨l, listed, blocks⟩ := loop
  obtain ⟨g, next, id, e, links, found, new, kind, source, target⟩ := adds_edge _ _ 1 3 true sideways_adds
  rw [← blocks] at links
  refine ⟨l, listed, g, next, id, e, links, found, new, ?_⟩
  rw [blocks]
  exact
    { branches := ⟨by decide, by decide, 1, by decide, source⟩
      listed := by decide
      depends := by decide
      kind := kind
      target := ⟨3, by decide, target⟩ }

theorem sideways_follows :
    sideways.Linked ∧ ∃ l ∈ (LoopForest.ofFunc sideways).loops, ∃ g next added id e,
      (pass ⟨0, sideways, l.blocks⟩ (postDominance sideways).dominates).run g = .ok added next ∧
      next.edges.get? id = some e ∧ g.edges.get? id = none ∧
      Guards ⟨0, sideways, l.blocks⟩ (postDominance sideways).dominates g 1 3 true e ∧
      ((∃ way, Path sideways.succ 4 3 way) ↔ CanEnd sideways 4) := by
  obtain ⟨l, listed, g, next, id, e, links, found, new, guards⟩ := sideways_guards
  obtain ⟨added, ran⟩ := links.ran
  refine ⟨sideways_linked, l, listed, g, next, added, id, e, ran, found, new, guards, ?_⟩
  rcases control_edges_follow_arms sideways sideways_linked l listed 0 g next (Or.inl ⟨added, ran⟩) id e found with
    old | ⟨_, lead⟩
  · cases new.symm.trans old
  · obtain ⟨start, isStart, follows⟩ := lead 1 3 true guards
    cases isStart
    exact follows

-- Every control edge of a loop stands for a way from the arm it is marked with.
def ArmsLeadOn : Prop :=
  ∀ f : Func, f.Linked → ∀ l ∈ (LoopForest.ofFunc f).loops, ∀ loopId g next,
    Links ⟨loopId, f, l.blocks⟩ (postDominance f).dominates g next →
    ∀ id e, next.edges.get? id = some e → g.edges.get? id = none → ∀ branch m arm start,
      Guards ⟨loopId, f, l.blocks⟩ (postDominance f).dominates g branch m arm e →
      armStart (f.succ branch) arm = some start → ∃ way, Path f.succ start m way

theorem not_arms_lead_on : ¬ArmsLeadOn := by
  intro claimed
  obtain ⟨l, listed, g, next, id, e, links, found, new, guards⟩ := sideways_guards
  obtain ⟨way, path⟩ := claimed sideways sideways_linked l listed 0 g next links id e found new 1 3 true 4 guards rfl
  have reached : 3 ∈ reachable sideways sideways.succ [4] := by
    refine (mem_reachable sideways sideways.succ [4] (sideways.succ_inside sideways_linked) (by decide) 3).mpr ?_
    exact ⟨4, List.mem_singleton.mpr rfl, way, path⟩
  exact absurd reached (by decide)

end LoopDeps.ControlLinks
