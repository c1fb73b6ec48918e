import LoopDeps.Graph.ControlLinks
import LoopDeps.Proofs.Graph.Edits
set_option autoImplicit false

/- Control links only add control edges, also when they give up half-way. Where every listed instruction has
   a node and every block that branches an instruction, they give up at the first block with more than two
   successors and nowhere else. -/
namespace LoopDeps

-- The graph with some control edges more.
inductive Controlled (g : Graph) : Graph → Prop where
  | same : Controlled g g
  | more (h : Graph) (before : Controlled g h) (source target : NodeId) (arm : Bool) (weight : Float)
      (sourceNode : ∃ n, h.nodes.get? source = some n) (targetNode : ∃ n, h.nodes.get? target = some n) :
      Controlled g (Edit.attach h source target (.control arm) weight)

namespace ControlLinks

theorem controlled_well_formed (g h : Graph) (well : g.WellFormed) (controlled : Controlled g h) :
    h.WellFormed := by
  induction controlled with
  | same => exact well
  | more h _ source target arm weight sourceNode targetNode ih =>
      exact Graph.attach_well_formed h source target (.control arm) weight ih sourceNode targetNode

theorem controlled_nodes (g h : Graph) (controlled : Controlled g h) (key : NodeId) :
    (h.nodes.get? key).map Node.unlisted = (g.nodes.get? key).map Node.unlisted := by
  induction controlled with
  | same => rfl
  | more h _ source target arm weight _ _ ih =>
      rw [Graph.get_attach_node, Option.map_map, ← ih]
      rfl

theorem controlled_frame (g h : Graph) (controlled : Controlled g h) :
    h.size = g.size ∧ h.byValue = g.byValue := by
  induction controlled with
  | same => exact ⟨rfl, rfl⟩
  | more h _ source target arm weight _ _ ih =>
      refine ⟨Eq.trans ?_ ih.1, ih.2⟩
      exact (Table.size_modify _ _ _).trans (Table.size_modify _ _ _)

-- Every edge of before stays, and the others are control edges.
theorem controlled_edges (g h : Graph) (controlled : Controlled g h) (id : EdgeId)
    (e : Edge) (found : h.edges.get? id = some e) :
    g.edges.get? id = some e ∨ e.kind.isControl = true := by
  induction controlled with
  | same => exact Or.inl found
  | more h before source target arm weight _ _ ih =>
      rw [Graph.get_attach_edge] at found
      split at found
      · cases found
        exact Or.inr rfl
      · exact ih found

theorem controlled_kept (g h : Graph) (well : g.WellFormed) (controlled : Controlled g h) (id : EdgeId) (e : Edge)
    (found : g.edges.get? id = some e) : h.edges.get? id = some e := by
  induction controlled with
  | same => exact found
  | more h before source target arm weight _ _ ih =>
      have below := Graph.edge_below h (controlled_well_formed g h well before) id e ih
      rw [Graph.get_attach_edge, if_neg (Nat.ne_of_lt below)]
      exact ih

def controls (g : Graph) : Nat := g.edges.values.countP fun e => e.kind.isControl

theorem controlled_size (g h : Graph) (well : g.WellFormed) (controlled : Controlled g h) :
    h.edges.size + controls g = g.edges.size + controls h := by
  induction controlled with
  | same => rfl
  | more h before source target arm weight _ _ ih =>
      have wellHere := controlled_well_formed g h well before
      have size := Graph.attach_edge_size h source target (.control arm) weight wellHere
      have count : controls (Edit.attach h source target (.control arm) weight) = controls h + 1 := by
        rw [controls, Graph.attach_edge_values h source target (.control arm) weight wellHere, List.countP_append]
        rfl
      omega

theorem controlled_present (g h : Graph) (controlled : Controlled g h) (id : NodeId)
    (present : ∃ n, g.nodes.get? id = some n) : ∃ n, h.nodes.get? id = some n := by
  obtain ⟨n, node⟩ := present
  obtain ⟨m, found, _⟩ := Graph.node_of_same g h id n (controlled_nodes g h controlled id) node
  exact ⟨m, found⟩

-- The values of a block that the loop lists.
def instrsOf (body : Body) (m : BlockId) : List ValueId := (body.func.block? m).elim [] Block.instrs

def HasNode (g : Graph) (value : ValueId) : Prop := ∃ id, g.nodeOf? value = some id

theorem link_instr_leads (g h : Graph) (well : g.WellFormed) (controlled : Controlled g h)
    (terminator : NodeId) (present : ∃ n, g.nodes.get? terminator = some n) (arm : Bool)
    (progress : Progress) (value : ValueId) :
    (linkInstr terminator arm progress value).Leads h (fun _ next => Controlled g next)
      fun _ next => Controlled g next ∧ ¬HasNode g value := by
  have values := (controlled_frame g h controlled).2
  have wellHere := controlled_well_formed g h well controlled
  cases known : h.nodeOf? value with
  | none =>
      refine Edit.leads_of_error _ h h (.missing h.loopId (.instruction value)) ?_ ⟨controlled, ?_⟩
      · simp only [linkInstr, EStateM.run_bind, EStateM.run_get, known, Edit.missing_run]
      · rintro ⟨id, found⟩
        rw [Graph.nodeOf?, values] at known
        rw [Graph.nodeOf?, known] at found
        cases found
  | some x =>
      obtain ⟨n, node, _⟩ := wellHere.indexed.valueNodes value x known
      by_cases fed : progress.dependents.any fun p => h.hasDataEdge p x
      · refine Edit.leads_of_ok _ h h ⟨progress.dependents ++ [x], progress.added⟩ ?_ controlled
        simp only [linkInstr, EStateM.run_bind, EStateM.run_get, known, fed, if_true, EStateM.run_pure]
      · have source := controlled_present g h controlled terminator present
        have added := Edit.add_edge_run terminator x (.control arm) (h.weightOf x) h source ⟨n, node⟩
        refine Edit.leads_of_ok _ h _ ⟨progress.dependents ++ [x], progress.added + 1⟩ ?_
          (.more h controlled terminator x arm (h.weightOf x) source ⟨n, node⟩)
        simp only [linkInstr, EStateM.run_bind, EStateM.run_get, known, fed, Bool.false_eq_true, if_false, added,
          EStateM.run_pure]

theorem link_block_leads (body : Body) (pdom : PostDominates) (g h : Graph) (well : g.WellFormed)
    (controlled : Controlled g h) (branch : BlockId) (terminator : NodeId)
    (present : ∃ n, g.nodes.get? terminator = some n) (progress : Progress) (m : BlockId) :
    (linkBlock body pdom branch terminator progress m).Leads h (fun _ next => Controlled g next)
      fun _ next => Controlled g next ∧ ¬∀ value ∈ instrsOf body m, HasNode g value := by
  unfold linkBlock
  cases dependsOn pdom (body.func.succ branch) branch m with
  | none => exact controlled
  | some arm =>
      refine Edit.leads_fold (instrsOf body m) _ (Controlled g) _ ?_ progress h controlled
      intro value member state next before
      refine Edit.leads_weaken _ next
        (link_instr_leads g next well before terminator present arm state value) (fun _ _ held => held) ?_
      exact fun _ _ failed => ⟨failed.1, fun all => failed.2 (all value member)⟩

-- Every instruction of a listed block has a node.
def Covered (body : Body) (g : Graph) : Prop := ∀ m ∈ body.blocks, ∀ value ∈ instrsOf body m, HasNode g value

-- Every block that branches ends in an instruction.
def Ended (body : Body) : Prop :=
  ∀ m ∈ body.blocks, ∀ block, body.func.block? m = some block → block.succ ≠ [] → block.instrs ≠ []

def Wide (body : Body) (branch : BlockId) (block : Block) : Prop :=
  body.func.block? branch = some block ∧ 2 < block.succ.length

theorem terminator_known (body : Body) (g : Graph) (branch : BlockId) (listed : branch ∈ body.blocks)
    (block : Block) (here : body.func.block? branch = some block) (branches : block.succ ≠ [])
    (covered : Covered body g) (ended : Ended body) : ∃ id, block.instrs.getLast?.bind g.nodeOf? = some id := by
  obtain ⟨last, isLast⟩ := Option.ne_none_iff_exists'.mp
    (mt List.getLast?_eq_none_iff.mp (ended branch listed block here branches))
  have inBlock : last ∈ instrsOf body branch := by
    rw [instrsOf, here]
    exact List.mem_of_getLast? isLast
  obtain ⟨id, known⟩ := covered branch listed last inBlock
  exact ⟨id, by rw [isLast, Option.bind_some, known]⟩

theorem link_arms_leads (body : Body) (pdom : PostDominates) (g h : Graph) (well : g.WellFormed)
    (controlled : Controlled g h) (branch : BlockId) (value : ValueId) (terminator : NodeId)
    (known : h.nodeOf? value = some terminator) :
    (body.blocks.foldlM (linkBlock body pdom branch terminator) ⟨[], 0⟩).Leads h
      (fun _ next => Controlled g next) fun _ next => Controlled g next ∧ ¬Covered body g := by
  rw [Graph.nodeOf?, (controlled_frame g h controlled).2] at known
  obtain ⟨n, node, _⟩ := well.indexed.valueNodes value terminator known
  refine Edit.leads_fold body.blocks (linkBlock body pdom branch terminator) (Controlled g) _ ?_ ⟨[], 0⟩ h
    controlled
  intro m member state next before
  refine Edit.leads_weaken _ next
    (link_block_leads body pdom g next well before branch terminator ⟨n, node⟩ state m) (fun _ _ held => held) ?_
  exact fun _ _ failed => ⟨failed.1, fun covered => failed.2 (covered m member)⟩

theorem link_branch_leads (body : Body) (pdom : PostDominates) (g h : Graph) (well : g.WellFormed)
    (controlled : Controlled g h) (branch : BlockId) (listed : branch ∈ body.blocks) :
    (linkBranch body pdom branch).Leads h (fun _ next => Controlled g next ∧ ∀ block, ¬Wide body branch block)
      fun error next => Controlled g next ∧ (Covered body g → Ended body →
        ∃ block, Wide body branch block ∧ error = .wideBranch body.loopId block.label block.succ.length) := by
  unfold linkBranch
  cases here : body.func.block? branch with
  | none =>
      refine ⟨controlled, fun block wide => ?_⟩
      rw [wide.1] at here
      cases here
  | some block =>
      have narrow : ¬2 < block.succ.length → ∀ other, ¬Wide body branch other := by
        intro short other wide
        cases Option.some.inj (here.symm.trans wide.1)
        exact short wide.2
      dsimp only
      by_cases wide : block.succ.length > 2
      · rw [if_pos wide]
        refine Edit.leads_of_error _ h h (.wideBranch body.loopId block.label block.succ.length) rfl ?_
        exact ⟨controlled, fun _ _ => ⟨block, ⟨here, wide⟩, rfl⟩⟩
      rw [if_neg wide]
      by_cases short : block.succ.length < 2
      · rw [if_pos short]
        exact Edit.leads_of_ok _ h h 0 rfl ⟨controlled, narrow wide⟩
      rw [if_neg short]
      apply Edit.leads_get
      cases last : block.instrs.getLast?.bind h.nodeOf? with
      | none =>
          refine ⟨controlled, fun covered ended => ?_⟩
          have branches : block.succ ≠ [] := fun nothing => short (by simp [nothing])
          obtain ⟨id, known⟩ := terminator_known body g branch listed block here branches covered ended
          have sameNodes : h.nodeOf? = g.nodeOf? := by
            funext value
            rw [Graph.nodeOf?, (controlled_frame g h controlled).2, Graph.nodeOf?]
          rw [sameNodes, known] at last
          cases last
      | some terminator =>
          obtain ⟨value, _, known⟩ := Option.bind_eq_some_iff.mp last
          refine Edit.leads_bind _ _ h (link_arms_leads body pdom g h well controlled branch value terminator known)
            ?_ ?_
          · exact fun _ _ failed => ⟨failed.1, fun covered _ => absurd covered failed.2⟩
          · exact fun _ _ held => ⟨held, narrow wide⟩

-- The first listed block with more than two successors.
def FirstWide (body : Body) (blocks : List BlockId) (block : Block) : Prop :=
  ∃ before branch after, blocks = before ++ branch :: after ∧ Wide body branch block ∧
    ∀ earlier ∈ before, ∀ other, ¬Wide body earlier other

theorem link_branches_leads (body : Body) (pdom : PostDominates) (g : Graph) (well : g.WellFormed)
    (blocks : List BlockId) (listed : ∀ branch ∈ blocks, branch ∈ body.blocks) (h : Graph)
    (controlled : Controlled g h) :
    (linkBranches body pdom blocks).Leads h
      (fun _ next => Controlled g next ∧ ∀ branch ∈ blocks, ∀ block, ¬Wide body branch block)
      fun error next => Controlled g next ∧ (Covered body g → Ended body →
        ∃ block, FirstWide body blocks block ∧ error = .wideBranch body.loopId block.label block.succ.length) := by
  induction blocks generalizing h with
  | nil => exact ⟨controlled, fun branch member => nomatch member⟩
  | cons branch rest ih =>
      refine Edit.leads_bind _ _ h
        (link_branch_leads body pdom g h well controlled branch (listed branch List.mem_cons_self)) ?_ ?_
      · rintro error next ⟨before, wide⟩
        refine ⟨before, fun covered ended => ?_⟩
        obtain ⟨block, isWide, text⟩ := wide covered ended
        exact ⟨block, ⟨[], branch, rest, rfl, isWide, fun earlier member => nomatch member⟩, text⟩
      · rintro here next ⟨before, narrow⟩
        refine Edit.leads_bind _ _ next
          (ih (fun other member => listed other (List.mem_cons_of_mem _ member)) next before) ?_ ?_
        · rintro error last ⟨after, wide⟩
          refine ⟨after, fun covered ended => ?_⟩
          obtain ⟨block, ⟨first, other, tail, split, isWide, clear⟩, text⟩ := wide covered ended
          refine ⟨block, ⟨branch :: first, other, tail, by rw [split]; rfl, isWide, ?_⟩, text⟩
          intro earlier member
          rcases List.mem_cons.mp member with rfl | later
          · exact narrow
          · exact clear earlier later
        · rintro later last ⟨after, clear⟩
          refine ⟨after, fun earlier member => ?_⟩
          rcases List.mem_cons.mp member with rfl | inRest
          · exact narrow
          · exact clear earlier inRest

theorem pass_leads (body : Body) (pdom : PostDominates) (g : Graph) (well : g.WellFormed) :
    (pass body pdom).Leads g
      (fun _ next => Controlled g next ∧ ∀ branch ∈ body.blocks, ∀ block, ¬Wide body branch block)
      fun error next => Controlled g next ∧ (Covered body g → Ended body →
        ∃ block, FirstWide body body.blocks block ∧
          error = .wideBranch body.loopId block.label block.succ.length) := by
  refine Edit.leads_bind _ _ g
    (link_branches_leads body pdom g well body.blocks (fun _ member => member) g .same) ?_ ?_
  · exact fun _ _ failed => failed
  · exact fun _ _ held => held

end ControlLinks

end LoopDeps
