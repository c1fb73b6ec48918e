import LoopDeps.Proofs.Graph.Guarding
set_option autoImplicit false

/- What the edits of a graph do not look at: which loop the graph is of, its share, and the arms of control edges.
   On two graphs that differ in nothing else, the edits run the same way and leave two such graphs again. -/
namespace LoopDeps

-- Another look of a graph. Whether an edge is a data edge does not change.
structure Guise where
  loopId : Nat → Nat
  coverage : Float → Float
  kind : Edge → Dependence
  data : ∀ e, kind e = .data ↔ e.kind = .data

namespace Guise

def edge (d : Guise) (e : Edge) : Edge := { e with kind := d.kind e }

def on (d : Guise) (g : Graph) : Graph :=
  { g with loopId := d.loopId g.loopId, coverage := d.coverage g.coverage, edges := g.edges.map d.edge }

def error (d : Guise) : LoopError → LoopError
  | .wideBranch loopId label successors => .wideBranch (d.loopId loopId) label successors
  | .missing loopId what => .missing (d.loopId loopId) what
  | .emptyLoop loopId => .emptyLoop (d.loopId loopId)
  | .system reason => .system reason

def result {α : Type} (d : Guise) : EStateM.Result LoopError Graph α → EStateM.Result LoopError Graph α
  | .ok value g => .ok value (d.on g)
  | .error error g => .error (d.error error) (d.on g)

-- The look of an edge does not depend on where its ends are, nor on its mark.
def Loose (d : Guise) : Prop := ∀ e other, e.id = other.id → e.kind = other.kind → d.kind e = d.kind other

-- The first edit does to the graph in its guise what the second one does to the graph itself.
def Carries {α : Type} (d : Guise) (first second : Edit α) (g : Graph) : Prop :=
  first.run (d.on g) = d.result (second.run g)

section

variable {α β : Type} (d : Guise)

theorem carries_pure (value : α) (g : Graph) : d.Carries (pure value) (pure value) g := rfl

theorem carries_bind (first second : Edit α) (rest others : α → Edit β) (g : Graph)
    (here : d.Carries first second g)
    (later : ∀ value next, second.run g = .ok value next → d.Carries (rest value) (others value) next) :
    d.Carries (first >>= rest) (second >>= others) g := by
  rw [Carries, EStateM.run_bind, EStateM.run_bind, here]
  cases ran : second.run g with
  | ok value next => exact later value next ran
  | error error next => rfl

theorem carries_get (rest others : Graph → Edit β) (g : Graph) (later : d.Carries (rest (d.on g)) (others g) g) :
    d.Carries (get >>= rest) (get >>= others) g := later

theorem carries_modify (f other : Graph → Graph) (g : Graph) (same : f (d.on g) = d.on (other g)) :
    d.Carries (modify f) (modify other) g := congrArg (EStateM.Result.ok ()) same

theorem carries_missing (what : Missing) (g : Graph) :
    d.Carries (Edit.missing what : Edit α) (Edit.missing what) g := rfl

theorem carries_for_each (items : List α) (body : α → Edit Unit)
    (each : ∀ item g, d.Carries (body item) (body item) g) (g : Graph) :
    d.Carries (items.forM body) (items.forM body) g := by
  induction items generalizing g with
  | nil => exact d.carries_pure () g
  | cons item rest ih => exact d.carries_bind _ _ _ _ g (each item g) fun _ next _ => ih next

theorem carries_fold (items : List α) (body other : β → α → Edit β)
    (each : ∀ state item g, d.Carries (body state item) (other state item) g) (state : β) (g : Graph) :
    d.Carries (items.foldlM body state) (items.foldlM other state) g := by
  induction items generalizing state g with
  | nil => exact d.carries_pure state g
  | cons item rest ih => exact d.carries_bind _ _ _ _ g (each state item g) fun value next _ => ih value next

end

section

variable {β : Type} (d : Guise) (g : Graph)

theorem edges_of_on (ids : List EdgeId) : (d.on g).edgesOf ids = (g.edgesOf ids).map d.edge := by
  rw [Graph.edgesOf, Graph.edgesOf, List.map_filterMap]
  exact List.filterMap_congr fun id _ => Table.get_map d.edge g.edges id

theorem has_data_edge_on (source target : NodeId) :
    (d.on g).hasDataEdge source target = g.hasDataEdge source target := by
  have nodes : (d.on g).nodes = g.nodes := rfl
  unfold Graph.hasDataEdge
  rw [nodes]
  cases g.nodes.get? source with
  | none => rfl
  | some n =>
      have sameKind : ∀ e, (d.kind e == .data) = (e.kind == .data) := fun e => by
        rw [Bool.eq_iff_iff, beq_iff_eq, beq_iff_eq, d.data e]
      simp only [Graph.outgoing, edges_of_on, List.any_map]
      refine List.any_congr rfl fun e => ?_
      show (d.kind e == .data && e.target == target) = _
      rw [sameKind]

theorem get_node_carries (id : NodeId) : d.Carries (Edit.getNode id) (Edit.getNode id) g := by
  have nodes : (d.on g).nodes = g.nodes := rfl
  apply d.carries_get
  rw [nodes]
  cases g.nodes.get? id with
  | none => exact d.carries_missing _ g
  | some n => exact d.carries_pure n g

-- The edge that is found shows its guise.
theorem get_edge_carries (id : EdgeId) (rest others : Edge → Edit β)
    (later : ∀ e, d.Carries (rest (d.edge e)) (others e) g) :
    d.Carries (Edit.getEdge id >>= rest) (Edit.getEdge id >>= others) g := by
  have read : (d.on g).edges.get? id = (g.edges.get? id).map d.edge := Table.get_map d.edge g.edges id
  cases found : g.edges.get? id with
  | none =>
      rw [found] at read
      simp only [Carries, Edit.getEdge, EStateM.run_bind, EStateM.run_get, read, found, Option.map_none,
        Edit.missing_run]
      rfl
  | some e =>
      rw [found] at read
      rw [Carries, Edit.run_bind_ok _ rest _ _ _ (Edit.get_edge_run id _ _ read),
        Edit.run_bind_ok _ others _ _ _ (Edit.get_edge_run id g e found)]
      exact later e

theorem change_node_carries (id : NodeId) (f : Node → Node) :
    d.Carries (Edit.changeNode id f) (Edit.changeNode id f) g :=
  d.carries_bind _ _ _ _ g (d.get_node_carries g id) fun _ next _ => d.carries_modify _ _ next rfl

theorem new_node_id_carries : d.Carries Edit.newNodeId Edit.newNodeId g := rfl

theorem attach_on (source target : NodeId) (kind shown : Dependence) (weight : Float)
    (look : d.kind (g.newEdge source target kind weight) = shown) :
    Edit.attach (d.on g) source target shown weight = d.on (Edit.attach g source target kind weight) := by
  have edges : (g.edges.map d.edge).insert (g.lastEdge + 1) (g.newEdge source target shown weight) =
      (g.edges.insert (g.lastEdge + 1) (g.newEdge source target kind weight)).map d.edge := by
    rw [Table.map_insert, edge, look]
    rfl
  exact congrArg (fun edges => { Edit.attach (d.on g) source target shown weight with edges }) edges

theorem add_edge_carries (source target : NodeId) (kind shown : Dependence) (weight : Float)
    (look : d.kind (g.newEdge source target kind weight) = shown) :
    d.Carries (Edit.addEdge source target shown weight) (Edit.addEdge source target kind weight) g := by
  have nodes : (d.on g).nodes = g.nodes := rfl
  apply d.carries_get
  rw [nodes]
  by_cases noSource : (!g.nodes.contains source) = true
  · rw [if_pos noSource, if_pos noSource]
    exact d.carries_missing _ g
  rw [if_neg noSource, if_neg noSource]
  by_cases noTarget : (!g.nodes.contains target) = true
  · rw [if_pos noTarget, if_pos noTarget]
    exact d.carries_missing _ g
  rw [if_neg noTarget, if_neg noTarget, attach_on d g source target kind shown weight look]
  rfl

theorem add_data_edge_carries (source target : NodeId) (weight : Float) :
    d.Carries (Edit.addEdge source target .data weight) (Edit.addEdge source target .data weight) g :=
  d.add_edge_carries g source target .data .data weight ((d.data _).mpr rfl)

-- An edge that is attached elsewhere keeps its look.
theorem modify_edge_on (id : EdgeId) (change : Edge → Edge) (same : ∀ e, d.edge (change e) = change (d.edge e)) :
    { d.on g with edges := (d.on g).edges.modify id change } = d.on { g with edges := g.edges.modify id change } :=
  congrArg (fun edges => { d.on g with edges }) (Table.map_modify d.edge change change g.edges id same).symm

theorem edge_moved (loose : d.Loose) (e : Edge) (other : NodeId) :
    d.edge { e with source := other } = { d.edge e with source := other } ∧
      d.edge { e with target := other } = { d.edge e with target := other } :=
  ⟨congrArg (fun kind => { e with kind, source := other }) (loose { e with source := other } e rfl rfl),
    congrArg (fun kind => { e with kind, target := other }) (loose { e with target := other } e rfl rfl)⟩

theorem move_source_carries (loose : d.Loose) (id : EdgeId) (other : NodeId) :
    d.Carries (Edit.moveSource id other) (Edit.moveSource id other) g := by
  apply d.get_edge_carries g
  intro e
  apply d.carries_bind _ _ _ _ g (d.change_node_carries g _ _)
  intro _ unhung _
  apply d.carries_bind _ _ _ _ unhung (d.change_node_carries unhung _ _)
  intro _ hung _
  exact d.carries_modify _ _ hung (d.modify_edge_on hung id _ fun e => (d.edge_moved loose e other).1)

theorem move_target_carries (loose : d.Loose) (id : EdgeId) (other : NodeId) :
    d.Carries (Edit.moveTarget id other) (Edit.moveTarget id other) g := by
  apply d.get_edge_carries g
  intro e
  apply d.carries_bind _ _ _ _ g (d.change_node_carries g _ _)
  intro _ unhung _
  apply d.carries_bind _ _ _ _ unhung (d.change_node_carries unhung _ _)
  intro _ hung _
  exact d.carries_modify _ _ hung (d.modify_edge_on hung id _ fun e => (d.edge_moved loose e other).2)

end

end Guise

section

variable (d : Guise) (g : Graph)

theorem DataLinks.producer_carries (f : Func) (weight : Float) (operand : ValueId) :
    d.Carries (DataLinks.producerOf f weight operand) (DataLinks.producerOf f weight operand) g := by
  have same : (d.on g).nodeOf? operand = g.nodeOf? operand := rfl
  apply d.carries_get
  rw [same]
  cases g.nodeOf? operand with
  | none =>
      apply d.carries_bind _ _ _ _ g (d.new_node_id_carries g)
      intro id next _
      exact d.carries_bind _ _ _ _ next (d.carries_modify _ _ next rfl) fun _ last _ => d.carries_pure id last
  | some producer =>
      apply d.carries_bind _ _ _ _ g (d.get_node_carries g producer)
      intro n next _
      cases external : n.isExternal with
      | true =>
          apply d.carries_bind _ _ _ _ next (d.change_node_carries next producer _)
          exact fun _ last _ => d.carries_pure producer last
      | false => exact d.carries_pure producer next

theorem DataLinks.consumer_carries (f : Func) (consumer : NodeId) :
    d.Carries (DataLinks.linkConsumer f consumer) (DataLinks.linkConsumer f consumer) g := by
  apply d.carries_bind _ _ _ _ g (d.get_node_carries g consumer)
  intro n next _
  cases f.instr? n.value with
  | none => exact d.carries_missing _ next
  | some instr =>
      refine d.carries_bind _ _ _ _ next (d.carries_for_each _ _ (fun operand h => ?_) next)
        fun _ last _ => d.carries_pure _ last
      apply d.carries_bind _ _ _ _ h (DataLinks.producer_carries d h f n.weight operand)
      intro producer after _
      exact d.carries_bind _ _ _ _ after (d.add_data_edge_carries after producer consumer _)
        fun _ last _ => d.carries_pure () last

theorem DataLinks.consumers_carry (f : Func) (ids : List NodeId) :
    d.Carries (DataLinks.linkConsumers f ids) (DataLinks.linkConsumers f ids) g := by
  induction ids generalizing g with
  | nil => exact d.carries_pure 0 g
  | cons id rest ih =>
      exact d.carries_bind _ _ _ _ g (DataLinks.consumer_carries d g f id) fun _ next _ =>
        d.carries_bind _ _ _ _ next (ih next) fun _ last _ => d.carries_pure _ last

theorem DataLinks.pass_carries (first second : Body) (sameFunc : first.func = second.func) :
    d.Carries (DataLinks.pass first) (DataLinks.pass second) g := by
  apply d.carries_get
  rw [sameFunc]
  exact d.carries_bind _ _ _ _ g (DataLinks.consumers_carry d g second.func _) fun _ next _ => d.carries_pure _ next

-- What linking a block looks at, apart from where the block leads.
def Block.face (block : Block) : String × List ValueId × Nat := (block.label, block.instrs, block.succ.length)

-- The first body has the blocks of the second one, under the number that the guise gives to the loop.
structure Guise.Dresses (d : Guise) (first second : Body) : Prop where
  number : first.loopId = d.loopId second.loopId
  blocks : first.blocks = second.blocks
  faces : ∀ id, (first.func.block? id).map Block.face = (second.func.block? id).map Block.face

namespace ControlLinks

-- What depends on an arm of the branch in the second body depends in the first one on the arm that the guise shows.
structure Turned (d : Guise) (first second : Body) (pdom plain : PostDominates) (branch : BlockId)
    (terminator : NodeId) (turn : Bool → Bool) : Prop where
  depends : ∀ m block, second.func.block? m = some block →
    dependsOn pdom (first.func.succ branch) branch m =
      (dependsOn plain (second.func.succ branch) branch m).map turn
  shows : ∀ e arm, e.source = terminator → e.kind = .control arm → d.kind e = .control (turn arm)

-- So it is at the node of whatever instruction the block branches with.
def TurnsAt (d : Guise) (nodeOf : ValueId → Option NodeId) (first second : Body) (pdom plain : PostDominates)
    (branch : BlockId) : Prop :=
  ∀ block value terminator, second.func.block? branch = some block → block.succ.length = 2 →
    block.instrs.getLast? = some value → nodeOf value = some terminator →
    ∃ turn, Turned d first second pdom plain branch terminator turn

theorem link_instr_carries (terminator : NodeId) (arm shown : Bool) (progress : Progress) (value : ValueId)
    (shows : ∀ e, e.source = terminator → e.kind = .control arm → d.kind e = .control shown) :
    d.Carries (linkInstr terminator shown progress value) (linkInstr terminator arm progress value) g := by
  have node : (d.on g).nodeOf? value = g.nodeOf? value := rfl
  have weight : ∀ x, (d.on g).weightOf x = g.weightOf x := fun _ => rfl
  apply d.carries_get
  simp only [node, d.has_data_edge_on, weight]
  cases g.nodeOf? value with
  | none => exact d.carries_missing _ g
  | some x =>
      dsimp only
      by_cases fed : (progress.dependents.any fun p => g.hasDataEdge p x) = true
      · rw [if_pos fed, if_pos fed]
        exact d.carries_pure _ g
      · rw [if_neg fed, if_neg fed]
        apply d.carries_bind _ _ _ _ g (d.add_edge_carries g terminator x _ _ _ (shows _ rfl rfl))
        exact fun _ next _ => d.carries_pure _ next

variable (first second : Body) (pdom plain : PostDominates)

theorem link_block_carries (dresses : d.Dresses first second) (branch : BlockId) (terminator : NodeId)
    (turn : Bool → Bool) (turned : Turned d first second pdom plain branch terminator turn) (progress : Progress)
    (m : BlockId) :
    d.Carries (linkBlock first pdom branch terminator progress m)
      (linkBlock second plain branch terminator progress m) g := by
  have faces := dresses.faces m
  unfold linkBlock
  cases found : second.func.block? m with
  | none =>
      -- No instructions, whatever they depend on.
      rw [found, Option.map_none, Option.map_eq_none_iff] at faces
      rw [faces]
      cases dependsOn pdom (first.func.succ branch) branch m <;>
        cases dependsOn plain (second.func.succ branch) branch m <;> exact d.carries_pure progress g
  | some block =>
      rw [found, Option.map_some, Option.map_eq_some_iff] at faces
      obtain ⟨same, there, face⟩ := faces
      have instrs : same.instrs = block.instrs := congrArg (fun face => face.2.1) face
      rw [turned.depends m block found, there]
      cases dependsOn plain (second.func.succ branch) branch m with
      | none => exact d.carries_pure progress g
      | some arm =>
          simp only [Option.map_some, Option.elim_some, instrs]
          refine d.carries_fold _ _ _ (fun state value h => ?_) progress g
          exact link_instr_carries d h terminator arm _ state value fun e => turned.shows e arm

theorem link_branch_carries (dresses : d.Dresses first second) (branch : BlockId)
    (turns : TurnsAt d g.nodeOf? first second pdom plain branch) :
    d.Carries (linkBranch first pdom branch) (linkBranch second plain branch) g := by
  have faces := dresses.faces branch
  unfold linkBranch
  cases found : second.func.block? branch with
  | none =>
      rw [found, Option.map_none, Option.map_eq_none_iff] at faces
      rw [faces]
      exact d.carries_pure 0 g
  | some block =>
      rw [found, Option.map_some, Option.map_eq_some_iff] at faces
      obtain ⟨same, there, face⟩ := faces
      obtain ⟨label, rest⟩ := Prod.mk.inj face
      obtain ⟨instrs, width⟩ := Prod.mk.inj rest
      rw [there]
      dsimp only
      rw [label, instrs, width]
      by_cases wide : block.succ.length > 2
      · rw [if_pos wide, if_pos wide, dresses.number]
        rfl
      rw [if_neg wide, if_neg wide]
      by_cases short : block.succ.length < 2
      · rw [if_pos short, if_pos short]
        exact d.carries_pure 0 g
      rw [if_neg short, if_neg short]
      have node : (d.on g).nodeOf? = g.nodeOf? := rfl
      apply d.carries_get
      rw [node]
      cases last : block.instrs.getLast?.bind g.nodeOf? with
      | none => exact d.carries_missing _ g
      | some terminator =>
          obtain ⟨value, isLast, known⟩ := Option.bind_eq_some_iff.mp last
          have twoWay : block.succ.length = 2 := by omega
          obtain ⟨turn, turned⟩ := turns block value terminator found twoWay isLast known
          dsimp only
          rw [dresses.blocks]
          refine d.carries_bind _ _ _ _ g (d.carries_fold _ _ _ (fun state m h => ?_) _ g)
            fun _ next _ => d.carries_pure _ next
          exact link_block_carries d h first second pdom plain dresses branch terminator turn turned state m

theorem link_branch_values (body : Body) (branch : BlockId) (listed : branch ∈ body.blocks) (next : Graph)
    (added : Nat) (ran : (linkBranch body pdom branch).run g = .ok added next) : next.nodeOf? = g.nodeOf? := by
  have guarded := Edit.of_leads _ g next added
    (link_branch_guarded body pdom g g (guarded_refl body pdom g) branch listed) ran
  exact congrArg Table.get? guarded.byValue

theorem link_branches_carry (dresses : d.Dresses first second) (blocks : List BlockId)
    (listed : ∀ branch ∈ blocks, branch ∈ second.blocks)
    (turns : ∀ branch, TurnsAt d g.nodeOf? first second pdom plain branch) :
    d.Carries (linkBranches first pdom blocks) (linkBranches second plain blocks) g := by
  induction blocks generalizing g with
  | nil => exact d.carries_pure 0 g
  | cons branch rest ih =>
      apply d.carries_bind _ _ _ _ g
        (link_branch_carries d g first second pdom plain dresses branch (turns branch))
      intro here next ran
      have values := link_branch_values g plain second branch (listed branch List.mem_cons_self) next here ran
      apply d.carries_bind _ _ _ _ next
        (ih next (fun other member => listed other (List.mem_cons_of_mem _ member)) (values ▸ turns))
      exact fun _ last _ => d.carries_pure _ last

theorem pass_carries (dresses : d.Dresses first second)
    (turns : ∀ branch, TurnsAt d g.nodeOf? first second pdom plain branch) :
    d.Carries (pass first pdom) (pass second plain) g := by
  unfold pass
  rw [dresses.blocks]
  apply d.carries_bind _ _ _ _ g
    (link_branches_carry d g first second pdom plain dresses second.blocks (fun _ member => member) turns)
  exact fun _ next _ => d.carries_pure _ next

end ControlLinks

theorem AddressChains.add_chain_carries (value : ValueId) (weight : Float) :
    d.Carries (AddressChains.addChain value weight) (AddressChains.addChain value weight) g := rfl

theorem AddressChains.expand_carries (loose : d.Loose) (f : Func) (id : NodeId) :
    d.Carries (AddressChains.expand f id) (AddressChains.expand f id) g := by
  apply d.carries_bind _ _ _ _ g (d.get_node_carries g id)
  intro n _ _
  apply d.carries_bind _ _ _ _ _ (AddressChains.add_chain_carries d _ n.value n.weight)
  intro chain _ _
  apply d.carries_bind _ _ _ _ _ (d.carries_for_each _ _ (fun e h => d.move_source_carries h loose e _) _)
  intro _ _ _
  have enters : ∀ e h, d.Carries (AddressChains.enter ((f.instr? n.value).elim [] Instr.operands) chain e)
      (AddressChains.enter ((f.instr? n.value).elim [] Instr.operands) chain e) h := fun e h =>
    d.get_edge_carries h _ _ _ fun found => d.carries_bind _ _ _ _ h (d.get_node_carries h found.source)
      fun _ next _ => d.move_target_carries next loose e _
  apply d.carries_bind _ _ _ _ _ (d.carries_for_each _ _ enters _)
  intro _ _ _
  apply d.carries_bind _ _ _ _ _ (d.add_data_edge_carries _ chain.size chain.multiply n.weight)
  intro _ _ _
  apply d.carries_bind _ _ _ _ _ (d.add_data_edge_carries _ chain.multiply chain.add2 n.weight)
  intro _ _ _
  apply d.carries_bind _ _ _ _ _ (d.add_data_edge_carries _ chain.add2 chain.add1 n.weight)
  exact fun _ last _ => d.carries_pure () last

theorem Graph.remove_nodes_on (ids : List NodeId) : (d.on g).removeNodes ids = d.on (g.removeNodes ids) := by
  have one : ∀ (g : Graph) id, (d.on g).removeNode id = d.on (g.removeNode id) := by
    intro g id
    have same : (d.on g).nodes = g.nodes := rfl
    unfold Graph.removeNode
    rw [same]
    cases g.nodes.get? id <;> rfl
  have fold : ids.foldl Graph.removeNode (d.on g) = d.on (ids.foldl Graph.removeNode g) := by
    induction ids generalizing g with
    | nil => rfl
    | cons id rest ih =>
        rw [List.foldl_cons, one, ih]
        rfl
  simp only [Graph.removeNodes, fold]
  rfl

theorem AddressChains.pass_carries (loose : d.Loose) (first second : Body) (sameFunc : first.func = second.func) :
    d.Carries (AddressChains.pass first) (AddressChains.pass second) g := by
  have nodes : AddressChains.staged first.func (d.on g) = AddressChains.staged second.func g := by
    rw [sameFunc]
    rfl
  apply d.carries_get
  dsimp only
  rw [nodes, sameFunc]
  apply d.carries_bind _ _ _ _ g
    (d.carries_for_each _ _ (fun id h => AddressChains.expand_carries d h loose second.func id) g)
  intro _ middle _
  apply d.carries_bind _ _ _ _ middle (d.carries_modify _ _ middle (Graph.remove_nodes_on d middle _))
  exact fun _ last _ => d.carries_pure _ last

theorem Backedges.search_on : Backedges.search (d.on g) = Backedges.search g :=
  Backedges.Search.search_same g (d.on g) rfl (Table.map_map d.edge Edge.target g.edges)

theorem Backedges.annotate_on (loose : d.Loose) (s : Backedges.Search) :
    Backedges.annotate (d.on g) s = d.on (Backedges.annotate g s) := by
  have told : Backedges.noted (d.on g) s = Backedges.noted g s := by
    refine Backedges.noted_same g (d.on g) s fun side => ?_
    cases side <;> exact Table.map_map d.edge _ g.edges
  have marks : ((g.edges.map d.edge).map fun e => { e with backedge := s.marked.contains e.id }) =
      (g.edges.map fun e => { e with backedge := s.marked.contains e.id }).map d.edge := by
    rw [Table.map_map, Table.map_map]
    refine Table.map_congr fun _ e _ => ?_
    exact congrArg (fun kind => { e with kind, backedge := s.marked.contains e.id })
      (loose e { e with backedge := s.marked.contains e.id } rfl rfl)
  exact congr (congrArg (fun told edges => { d.on g with nodes := g.nodes.map told, edges }) told) marks

theorem Backedges.pass_carries (loose : d.Loose) : d.Carries Backedges.pass Backedges.pass g := by
  apply d.carries_get
  dsimp only
  rw [Backedges.search_on, Backedges.annotate_on d g loose]
  have here : d.Carries (set (d.on (Backedges.annotate g (Backedges.search g))) : Edit PUnit)
      (set (Backedges.annotate g (Backedges.search g))) g := rfl
  apply d.carries_bind _ _ _ _ g here
  intro _ next _
  cases (Backedges.search g).missing with
  | none => exact d.carries_pure _ next
  | some id => exact d.carries_missing _ next

theorem Graph.passes_carry (loose : d.Loose) (first second : Body) (pdom plain : ControlLinks.PostDominates)
    (sameFunc : first.func = second.func) (dresses : d.Dresses first second)
    (turns : ∀ nodeOf branch, ControlLinks.TurnsAt d nodeOf first second pdom plain branch) :
    d.Carries (Graph.passes first pdom) (Graph.passes second plain) g := by
  apply d.carries_bind _ _ _ _ g (DataLinks.pass_carries d g first second sameFunc)
  intro _ linked _
  apply d.carries_bind _ _ _ _ linked
    (ControlLinks.pass_carries d linked first second pdom plain dresses (turns linked.nodeOf?))
  intro _ controlled _
  apply d.carries_bind _ _ _ _ controlled (AddressChains.pass_carries d controlled loose first second sameFunc)
  intro _ expanded _
  apply d.carries_bind _ _ _ _ expanded (Backedges.pass_carries d expanded loose)
  exact fun _ finished _ => d.carries_pure () finished

end

end LoopDeps
