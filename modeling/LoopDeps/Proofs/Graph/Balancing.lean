import LoopDeps.Proofs.Graph.Marking
import LoopDeps.Proofs.Graph.Weighing
import LoopDeps.Proofs.Run.Outcomes
set_option autoImplicit false

/- The weights of a finished graph. Control links only lead from instruction to instruction, and a chain takes over
   the edges of an address without a change to the listings of the values from outside. -/
namespace LoopDeps

namespace Graph

theorem weight_of_stands (g : Graph) (key : NodeId) (weight : Float) (stands : g.Stands key weight) :
    g.weightOf key = weight := by
  obtain ⟨n, node, _, same⟩ := stands
  rw [weightOf, node, Option.elim_some, same]

end Graph

namespace ControlLinks

open LoopDeps.Graph

-- The nodes of the listed values are instructions.
def Inner (body : Body) (g : Graph) : Prop :=
  ∀ m ∈ body.blocks, ∀ value ∈ instrsOf body m, ∀ id, g.nodeOf? value = some id → ∃ weight, g.Stands id weight

structure Kept (g next : Graph) : Prop where
  weighed : next.Weighed nothing
  byValue : next.byValue = g.byValue
  stands : ∀ key weight, g.Stands key weight → next.Stands key weight

theorem link_instr_weighs (body : Body) (g : Graph) (inner : Inner body g) (terminator : NodeId) (held : Float)
    (stands : g.Stands terminator held) (arm : Bool) (progress : Progress) (m : BlockId) (listed : m ∈ body.blocks)
    (value : ValueId) (inBlock : value ∈ instrsOf body m) (h : Graph) (kept : Kept g h) :
    (linkInstr terminator arm progress value).Leads h (fun _ next => Kept g next) fun _ _ => True := by
  unfold linkInstr
  apply Edit.leads_get
  cases known : h.nodeOf? value with
  | none => trivial
  | some x =>
      dsimp only
      by_cases fed : (progress.dependents.any fun p => h.hasDataEdge p x) = true
      · rw [if_pos fed]
        exact kept
      rw [if_neg fed]
      rw [nodeOf?, kept.byValue] at known
      obtain ⟨weight, atTarget⟩ := inner m listed value inBlock x known
      have target := kept.stands x weight atTarget
      obtain ⟨n, node, instruction, _⟩ := kept.stands terminator held stands
      rw [weight_of_stands h x weight target]
      refine Edit.leads_then _ _ h (Edit.add_edge_leads terminator x (.control arm) weight h) ?_
      rintro _ _ ⟨source, _, rfl⟩
      refine ⟨attach_weighed h terminator x (.control arm) weight ?_ source target, kept.byValue, ?_⟩
      · exact weighed_owing h kept.weighed terminator _ n node instruction
      · exact fun key before there =>
          attach_stands h terminator x (.control arm) weight key before (kept.stands key before there)

theorem link_arms_weigh (body : Body) (pdom : PostDominates) (g : Graph) (inner : Inner body g) (branch : BlockId)
    (terminator : NodeId) (held : Float) (stands : g.Stands terminator held) (h : Graph) (kept : Kept g h) :
    (body.blocks.foldlM (linkBlock body pdom branch terminator) ⟨[], 0⟩).Leads h (fun _ next => Kept g next)
      fun _ _ => True := by
  refine Edit.leads_fold body.blocks (linkBlock body pdom branch terminator) (Kept g) (fun _ _ => True) ?_ ⟨[], 0⟩ h
    kept
  intro m member progress middle before
  unfold linkBlock
  cases dependsOn pdom (body.func.succ branch) branch m with
  | none => exact before
  | some arm =>
      refine Edit.leads_fold (instrsOf body m) _ (Kept g) _ ?_ progress middle before
      exact fun value inBlock state next more =>
        link_instr_weighs body g inner terminator held stands arm state m member value inBlock next more

theorem link_branch_weighs (body : Body) (pdom : PostDominates) (g : Graph) (inner : Inner body g) (branch : BlockId)
    (listed : branch ∈ body.blocks) (h : Graph) (kept : Kept g h) :
    (linkBranch body pdom branch).Leads h (fun _ next => Kept g next) fun _ _ => True := by
  unfold linkBranch
  cases here : body.func.block? branch with
  | none => exact kept
  | some block =>
      dsimp only
      by_cases wide : block.succ.length > 2
      · rw [if_pos wide]
        trivial
      rw [if_neg wide]
      by_cases short : block.succ.length < 2
      · rw [if_pos short]
        exact kept
      rw [if_neg short]
      apply Edit.leads_get
      cases last : block.instrs.getLast?.bind h.nodeOf? with
      | none => trivial
      | some terminator =>
          obtain ⟨value, isLast, known⟩ := Option.bind_eq_some_iff.mp last
          rw [nodeOf?, kept.byValue] at known
          have inBlock : value ∈ instrsOf body branch := by
            rw [instrsOf, here]
            exact List.mem_of_getLast? isLast
          obtain ⟨held, stands⟩ := inner branch listed value inBlock terminator known
          exact Edit.leads_then _ _ h (link_arms_weigh body pdom g inner branch terminator held stands h kept)
            fun _ _ after => after

theorem link_branches_weigh (body : Body) (pdom : PostDominates) (g : Graph) (inner : Inner body g)
    (blocks : List BlockId) (listed : ∀ branch ∈ blocks, branch ∈ body.blocks) (h : Graph) (kept : Kept g h) :
    (linkBranches body pdom blocks).Leads h (fun _ next => Kept g next) fun _ _ => True := by
  induction blocks generalizing h with
  | nil => exact kept
  | cons branch rest ih =>
      refine Edit.leads_then _ _ h
        (link_branch_weighs body pdom g inner branch (listed branch List.mem_cons_self) h kept) fun _ middle before => ?_
      exact Edit.leads_then _ _ middle
        (ih (fun other member => listed other (List.mem_cons_of_mem _ member)) middle before) fun _ _ after => after

theorem pass_weighs (body : Body) (pdom : PostDominates) (g : Graph) (weighed : g.Weighed nothing)
    (inner : Inner body g) :
    (pass body pdom).Leads g (fun _ next => next.Weighed nothing) fun _ _ => True :=
  Edit.leads_then _ _ g (link_branches_weigh body pdom g inner body.blocks (fun _ member => member) g
    ⟨weighed, rfl, fun _ _ held => held⟩) fun _ _ kept => kept.weighed

-- A listed instruction is one of the body, and those from outside are not.
theorem inner_linked (body : Body) (sound : body.func.Sound) (g : Graph) (well : g.WellFormed)
    (sourced : Sourced body g) : Inner body g := by
  intro m listed value inBlock id known
  obtain ⟨n, node, same, _⟩ := well.indexed.valueNodes value id known
  have inBody : value ∈ body.ids := body.listed_in_ids sound m listed value inBlock
  rcases (sourced.nodes id n node).2 with ⟨_, _, instruction, _⟩ | ⟨_, _, outside⟩
  · exact ⟨n.weight, n, node, instruction, rfl⟩
  · exact absurd (same ▸ inBody) outside

end ControlLinks

namespace AddressChains

open LoopDeps.Graph

-- The node at `key` lists these edges as outgoing.
def Lists (key : NodeId) (ids : List EdgeId) (g : Graph) : Prop :=
  ∃ n, g.nodes.get? key = some n ∧ n.outgoing = ids

theorem lists_with_end (g : Graph) (side : End) (id : EdgeId) (old other key : NodeId) (ids : List EdgeId)
    (lists : Lists key ids g) (apart : side = .source → key ≠ old ∧ key ≠ other) :
    Lists key ids (g.withEnd side id old other) := by
  obtain ⟨n, node, same⟩ := lists
  refine ⟨n.relisted (rehung id old other key (n.listing side)) side, by rw [get_with_end_node, node]; rfl, ?_⟩
  cases side with
  | target => exact same
  | source =>
      obtain ⟨off, onto⟩ := apart rfl
      show rehung id old other key n.outgoing = ids
      rw [rehung, if_neg off, if_neg onto, List.append_nil, same]

theorem lists_attached (g : Graph) (source target : NodeId) (kind : Dependence) (weight : Float) (key : NodeId)
    (ids : List EdgeId) (lists : Lists key ids g) (other : key ≠ source) :
    Lists key ids (Edit.attach g source target kind weight) := by
  obtain ⟨n, node, same⟩ := lists
  refine ⟨n.joined key (g.newEdge source target kind weight), by rw [get_attach_node, node]; rfl, ?_⟩
  show n.outgoing ++ (if key = source then _ else []) = ids
  rw [if_neg other, List.append_nil, same]

-- The edges of `moving` leave from other nodes than `key` all the while.
theorem leave_lists (moving : List EdgeId) (exit key : NodeId) (ids : List EdgeId) (other : key ≠ exit) (g : Graph)
    (lists : Lists key ids g) (apart : ∀ id ∈ moving, ∀ e, g.edges.get? id = some e → e.source ≠ key) :
    (moving.forM fun id => Edit.moveSource id exit).Leads g (fun _ next => Lists key ids next) fun _ _ => True := by
  refine Edit.leads_weaken _ g (Edit.leads_for_each moving (fun id => Edit.moveSource id exit)
    (fun h => Lists key ids h ∧ ∀ id ∈ moving, ∀ e, h.edges.get? id = some e → e.source ≠ key) ?_ g ⟨lists, apart⟩)
    (fun _ _ held => held.1) fun _ _ _ => trivial
  rintro id member h ⟨listsHere, apartHere⟩
  refine Edit.leads_weaken _ h (Edit.move_source_leads id exit h) ?_ fun _ _ _ => trivial
  rintro _ _ ⟨e, found, rfl⟩
  refine ⟨lists_with_end h .source id e.source exit key ids listsHere ?_, ?_⟩
  · exact fun _ => ⟨Ne.symm (apartHere id member e found), other⟩
  · intro moved inMoving x read
    rw [get_with_end_edge] at read
    split at read
    · obtain ⟨before, _, rfl⟩ := Option.map_eq_some_iff.mp read
      exact Ne.symm other
    · exact apartHere moved inMoving x read

theorem enter_lists (operands : List ValueId) (chain : Chain) (entering : List EdgeId) (key : NodeId)
    (ids : List EdgeId) (g : Graph) (lists : Lists key ids g) :
    (entering.forM (enter operands chain)).Leads g (fun _ next => Lists key ids next) fun _ _ => True := by
  refine Edit.leads_for_each entering (enter operands chain) (Lists key ids) ?_ g lists
  intro id _ h listsHere
  refine Edit.leads_then _ _ h (Edit.get_edge_leads id h) ?_
  rintro e _ ⟨rfl, _⟩
  refine Edit.leads_then _ _ _ (Edit.get_node_leads e.source _) ?_
  rintro source _ ⟨rfl, _⟩
  refine Edit.leads_weaken _ _ (Edit.move_target_leads id _ _) ?_ fun _ _ _ => trivial
  rintro _ _ ⟨moved, _, rfl⟩
  exact lists_with_end _ .target id moved.target _ key ids listsHere nofun

theorem link_lists (source target : NodeId) (kind : Dependence) (weight : Float) (key : NodeId) (ids : List EdgeId)
    (other : key ≠ source) (g : Graph) (lists : Lists key ids g) :
    (Edit.addEdge source target kind weight).Leads g (fun _ next => Lists key ids next) fun _ _ => True := by
  refine Edit.leads_weaken _ g (Edit.add_edge_leads source target kind weight g) ?_ fun _ _ _ => trivial
  rintro _ _ ⟨_, _, rfl⟩
  exact lists_attached g source target kind weight key ids lists other

-- An expansion leaves the outgoing edges of every other node as they are listed.
theorem expand_lists (f : Func) (g : Graph) (well : g.WellFormed) (id : NodeId) (n : Node)
    (node : g.nodes.get? id = some n) (key : NodeId) (m : Node) (found : g.nodes.get? key = some m) (other : key ≠ id) :
    (expand f id).Leads g (fun _ next => Lists key m.outgoing next) fun _ _ => True := by
  have low := Chain.ne_above g.lastNode key (well.indexed.nodeBound key m found)
  have lists : Lists key m.outgoing (g.withChain n.value n.weight) :=
    ⟨m, with_chain_old g n.value n.weight well key m found, rfl⟩
  have sources : ∀ e ∈ n.outgoing, ∀ x, g.edges.get? e = some x → x.source ≠ key := by
    intro e member x there leaves
    obtain ⟨y, same, atNode⟩ := well.mirrored.recorded .source id n e node member
    cases Option.some.inj (there.symm.trans same)
    exact other (leaves.symm.trans atNode)
  refine Edit.leads_after _ _ g g n (Edit.get_node_run id g n node) ?_
  refine Edit.leads_after _ _ g _ _ (add_chain_run n.value n.weight g) ?_
  refine Edit.leads_then _ _ _ (leave_lists n.outgoing _ key m.outgoing (low 0) _ lists sources)
    fun _ left listsLeft => ?_
  refine Edit.leads_then _ _ left (enter_lists _ _ n.incoming key m.outgoing left listsLeft)
    fun _ entered listsEntered => ?_
  refine Edit.leads_then _ _ entered (link_lists _ _ .data n.weight key m.outgoing (low 3) entered listsEntered)
    fun _ first listsFirst => ?_
  refine Edit.leads_then _ _ first (link_lists _ _ .data n.weight key m.outgoing (low 2) first listsFirst)
    fun _ second listsSecond => ?_
  exact Edit.leads_then _ _ second (link_lists _ _ .data n.weight key m.outgoing (low 1) second listsSecond)
    fun _ _ listsThird => listsThird

theorem chain_stands (operands : List ValueId) (id : NodeId) (n : Node) (g h : Graph)
    (expanded : Expanded operands id n g h) (key : NodeId) (role : ChainRole)
    (isRole : (Chain.above g.lastNode).roleOf key = some role) : h.Stands key n.weight := by
  obtain ⟨k, node, same⟩ := expanded_chain operands id n g h expanded key role isRole
  exact ⟨k, node, Node.weighs_same same⟩

theorem old_stands (operands : List ValueId) (id : NodeId) (n : Node) (g h : Graph) (well : g.WellFormed)
    (expanded : Expanded operands id n g h) (key : NodeId) (weight : Float) (stands : g.Stands key weight) :
    h.Stands key weight := by
  obtain ⟨m, found, instruction, weighs⟩ := stands
  obtain ⟨k, node, same⟩ := expanded_old operands id n g h well expanded key m found
  obtain ⟨kind, weight⟩ := Node.weighs_same same
  exact ⟨k, node, kind.trans instruction, weight.trans weighs⟩

-- The node of the address and those of its chain weigh the same.
theorem expanded_target (operands : List ValueId) (id : NodeId) (n : Node) (g h : Graph) (weighed : g.Weighed nothing)
    (node : g.nodes.get? id = some n) (expanded : Expanded operands id n g h) (key : EdgeId) (e : Edge)
    (found : h.edges.get? key = some e) : h.Stands e.target e.weight := by
  have stands := chain_stands operands id n g h expanded
  rw [expanded.edges] at found
  cases link : (Chain.above g.lastNode).links g.lastEdge n.weight key with
  | some made =>
      rw [link] at found
      cases found
      unfold Chain.links at link
      split at link
      · cases link
        exact stands _ .multiply (by simp [Chain.roleOf, Chain.above])
      split at link
      · cases link
        exact stands _ .add2 (by simp [Chain.roleOf, Chain.above])
      split at link
      · cases link
        exact stands _ .add1 (by simp [Chain.roleOf, Chain.above])
      · cases link
  | none =>
      rw [link] at found
      obtain ⟨old, there, rfl⟩ := Option.map_eq_some_iff.mp found
      have before := weighed.targets key old there
      by_cases into : old.target = id
      · obtain ⟨m, same, _, weighs⟩ := before
        rw [into, node] at same
        cases same
        obtain ⟨role, isRole⟩ := Chain.role_of_entry g.lastNode (operands.idxOf? (g.valueAt old.source))
        simpa only [Edge.redirected, if_pos into, ← weighs] using stands _ role isRole
      · simpa only [Edge.redirected, if_neg into] using
          old_stands operands id n g h weighed.well expanded old.target old.weight before

theorem expanded_weighed (operands : List ValueId) (id : NodeId) (n : Node) (g h : Graph) (weighed : g.Weighed nothing)
    (node : g.nodes.get? id = some n) (instruction : n.kind = .instruction) (expanded : Expanded operands id n g h)
    (lists : ∀ key m, g.nodes.get? key = some m → key ≠ id → Lists key m.outgoing h) : h.Weighed nothing := by
  refine ⟨expanded.well, expanded_target operands id n g h weighed node expanded, ?_⟩
  intro key k found external
  rcases expanded_origin operands id n g h expanded key k found with ⟨m, there, same⟩ | ⟨role, _, same⟩
  · obtain ⟨kind, weight⟩ := Node.weighs_same same
    have other : key ≠ id := by
      rintro rfl
      cases Option.some.inj (node.symm.trans there)
      rw [kind, instruction] at external
      cases external
    obtain ⟨listed, now, outgoing⟩ := lists key m there other
    cases Option.some.inj (found.symm.trans now)
    have loads : h.loads k = g.loads m := by
      refine loads_same g h m k outgoing fun edge member => ?_
      obtain ⟨e, old, _⟩ := weighed.well.mirrored.recorded .source key m edge there member
      rw [expanded.edges, Chain.links_old _ _ edge _ (weighed.well.edgeBound edge e old), old]
      rfl
    rw [loads, weight]
    exact weighed.balanced key m there (kind ▸ external)
  · rw [(Node.weighs_same same).1] at external
    cases external

theorem expand_weighs (f : Func) (g : Graph) (weighed : g.Weighed nothing) (id : NodeId) (n : Node)
    (node : g.nodes.get? id = some n) (instruction : n.kind = .instruction) :
    ∃ h, (expand f id).run g = .ok () h ∧ h.Weighed nothing ∧ ∀ key weight, g.Stands key weight → h.Stands key weight := by
  obtain ⟨h, ran, expanded⟩ := expand_run f g weighed.well id n node
  refine ⟨h, ran, expanded_weighed _ id n g h weighed node instruction expanded fun key m found other => ?_, ?_⟩
  · exact Edit.of_leads _ g h () (expand_lists f g weighed.well id n node key m found other) ran
  · exact old_stands _ id n g h weighed.well expanded

theorem weighed_without (f : Func) (g middle : Graph) (well : g.WellFormed) (unfolded : Unfolded g (staged f g) middle)
    (weighed : middle.Weighed nothing) : (withoutStaged f g middle).Weighed nothing := by
  have read : ∀ key, (withoutStaged f g middle).nodes.get? key =
      if key ∈ staged f g then none else middle.nodes.get? key := get_fold_remove (staged f g) middle
  have edges : (withoutStaged f g middle).edges = middle.edges := (fold_remove_frame (staged f g) middle).1
  refine ⟨(unfolded_removed f g middle well unfolded).1, ?_, ?_⟩
  · intro id e found
    rw [edges] at found
    obtain ⟨n, node, rest⟩ := weighed.targets id e found
    have stays : e.target ∉ staged f g := fun member => (unfolded.detached e.target member id e found).2 rfl
    exact ⟨n, by rw [read, if_neg stays, node], rest⟩
  · intro key n found external
    rw [read] at found
    split at found
    · cases found
    · rw [loads_same middle _ n n rfl fun _ _ => by rw [edges]]
      exact weighed.balanced key n found external

theorem pass_weighs (body : Body) (g : Graph) (weighed : g.Weighed nothing) :
    (pass body).Leads g (fun _ next => next.Weighed nothing) fun _ _ => True := by
  have standing : ∀ id ∈ staged body.func g, ∃ weight, g.Stands id weight := by
    intro id member
    obtain ⟨n, found, address⟩ := (mem_staged body.func g weighed.well.indexed id).mp member
    exact ⟨n.weight, n, found, (address_plain body.func n address).1, rfl⟩
  obtain ⟨middle, ran, unfolded, _⟩ := expand_each_run body.func g weighed.well (staged body.func g)
    (staged_inside body.func g weighed.well.indexed) (fun _ _ => True) trivial fun _ _ _ _ _ _ _ _ _ _ _ _ => trivial
  have leads := Edit.leads_for_each (staged body.func g) (expand body.func)
    (fun h => h.Weighed nothing ∧ ∀ id ∈ staged body.func g, ∃ weight, h.Stands id weight) (by
      rintro id member h ⟨weighedHere, stand⟩
      obtain ⟨weight, n, node, instruction, _⟩ := stand id member
      obtain ⟨next, expanded, weighedNext, stands⟩ := expand_weighs body.func h weighedHere id n node instruction
      refine Edit.leads_of_ok _ h next () expanded ⟨weighedNext, fun other listed => ?_⟩
      exact (stand other listed).imp fun weight before => stands other weight before)
    g ⟨weighed, standing⟩
  have weighedMiddle := (Edit.of_leads _ g middle () leads ran).1
  exact Edit.leads_of_ok _ g _ _ (pass_run body g middle weighed.well ran unfolded)
    (weighed_without body.func g middle weighed.well unfolded weighedMiddle)

end AddressChains

namespace Graph

theorem annotate_weighed (g : Graph) (weighed : g.Weighed nothing) (s : Backedges.Search) :
    (Backedges.annotate g s).Weighed nothing := by
  have nodes := Backedges.get_annotate_node g s
  refine ⟨Backedges.annotate_well_formed g s weighed.well, ?_, ?_⟩
  · intro id marked found
    obtain ⟨e, old, rfl⟩ := Option.map_eq_some_iff.mp ((Table.get_map _ g.edges id).symm.trans found)
    obtain ⟨n, node, rest⟩ := weighed.targets id e old
    exact ⟨Backedges.noted g s n, by rw [nodes, node]; rfl, rest⟩
  · intro key noted found external
    rw [nodes] at found
    obtain ⟨n, node, rfl⟩ := Option.map_eq_some_iff.mp found
    have loads : (Backedges.annotate g s).loads (Backedges.noted g s n) = g.loads n := by
      refine loads_same g _ n _ rfl fun id _ => ?_
      rw [Backedges.get_annotate_edge g s weighed.well.mirrored, Option.map_map]
      rfl
    rw [loads]
    exact weighed.balanced key n node external

theorem construct_weighed (body : Body) (pdom : ControlLinks.PostDominates) (g : Graph) (sound : body.func.Sound)
    (built : construct body pdom = .ok g) : g.Weighed nothing := by
  obtain ⟨start, started, ran⟩ := construct_ok body pdom g built
  have placed := of_body_placed body start started
  obtain ⟨linked, linkRan, supplied⟩ := DataLinks.pass_supplies body start placed
  have weighed := Edit.of_leads _ start linked _
    (DataLinks.pass_weighs body start (placed_weighed body.instrs start placed)) linkRan
  have inner := ControlLinks.inner_linked body sound linked supplied.well
    (sourced_linked body start linked placed _ _ supplied)
  have leads : (passes body pdom).Leads start (fun _ next => next.Weighed nothing) fun _ _ => True := by
    refine Edit.leads_after _ _ start linked _ linkRan ?_
    refine Edit.leads_then _ _ linked (ControlLinks.pass_weighs body pdom linked weighed inner)
      fun _ controlled weighedHere => ?_
    refine Edit.leads_then _ _ controlled (AddressChains.pass_weighs body controlled weighedHere)
      fun _ expanded weighedThere => ?_
    refine Edit.leads_after _ _ expanded _ _ (Backedges.pass_run expanded weighedThere.well.mirrored) ?_
    exact annotate_weighed expanded weighedThere _
  exact Edit.of_leads _ start g () leads ran

-- A value from outside weighs what the instructions weigh that use it, one term for each use.
theorem external_weights_add_up (body : Body) (pdom : ControlLinks.PostDominates) (g : Graph) (func : body.func.Built)
    (built : construct body pdom = .ok g) :
    (∀ key n, g.nodes.get? key = some n → n.kind = .external →
      n.outgoing ≠ [] ∧ n.incoming = [] ∧
        (∀ id ∈ n.outgoing, ∃ e, g.edges.get? id = some e ∧ e.source = key ∧ e.kind = .data) ∧
        leftSum? ((g.outgoing n).map fun e => g.weightOf e.target) = some n.weight) ∧
      ∀ id e, g.edges.get? id = some e → ∃ t, g.nodes.get? e.target = some t ∧ e.weight = t.weight := by
  have weighed := construct_weighed body pdom g (Func.built_sound body.func func) built
  have well := weighed.well
  refine ⟨?_, ?_⟩
  · intro key n node external
    obtain ⟨data, sum⟩ := weighed.balanced key n node external
    rw [nothing, List.append_nil] at data sum
    have weights : (g.outgoing n).map (fun e => g.weightOf e.target) = (g.loads n).map Prod.snd := by
      rw [loads, List.map_map]
      refine List.map_congr_left fun e member => ?_
      have found := ((mem_edges_of g well.mirrored n.outgoing e).mp member).2
      exact weight_of_stands g e.target e.weight (weighed.targets e.id e found)
    refine ⟨?_, ?_, ?_, weights ▸ sum⟩
    · intro bare
      rw [loads, outgoing, bare] at sum
      cases sum
    · refine List.eq_nil_iff_forall_not_mem.mpr fun id member => ?_
      obtain ⟨e, found, there⟩ := well.mirrored.recorded .target key n id node member
      obtain ⟨t, target, instruction, _⟩ := weighed.targets id e found
      have there : e.target = key := there
      rw [there, node] at target
      cases target
      rw [external] at instruction
      cases instruction
    · intro id member
      obtain ⟨e, found, there⟩ := well.mirrored.recorded .source key n id node member
      refine ⟨e, found, there, data (e.kind, e.weight) ?_⟩
      exact List.mem_map.mpr ⟨e, List.mem_filterMap.mpr ⟨id, member, found⟩, rfl⟩
  · intro id e found
    obtain ⟨t, target, _, same⟩ := weighed.targets id e found
    exact ⟨t, target, same.symm⟩

-- An argument that an address takes twice, and two sums of other weights.
def sharing : Func :=
  let blocks := ((((Func.new "share").addBlock "first" 0.1).1.addBlock "second" 0.2).1.addBlock "third" 0.3).1
  let shared := (blocks.addArgument "n" (.int 32)).1
  let place := (shared.push ⟨some "p", "gep", .ptr, [0, 0], [], 0⟩).1
  let sum := (place.push ⟨some "s", "add", .int 32, [0, 1], [], 1⟩).1
  (sum.push ⟨some "t", "add", .int 32, [2, 0], [], 2⟩).1

def sharingCheck : Bool :=
  match construct ⟨0, sharing, [0, 1, 2]⟩ fun _ _ => false with
  | .ok g =>
      (g.nodes.get? 4).any fun n =>
        n.kind == .external && (g.outgoing n).map Edge.target == [5, 5, 2, 3] &&
          decide ((g.outgoing n).map (fun e => g.weightOf e.target) = [0.1, 0.1, 0.2, 0.3])
  | .error _ => false

theorem sharing_adds_up :
    sharing.Built ∧ ∃ g n, construct ⟨0, sharing, [0, 1, 2]⟩ (fun _ _ => false) = .ok g ∧
      g.nodes.get? 4 = some n ∧ n.kind = .external ∧ (g.outgoing n).map Edge.target = [5, 5, 2, 3] ∧
      leftSum? [0.1, 0.1, 0.2, 0.3] = some n.weight ∧ n.incoming = [] := by
  have func : sharing.Built := by
    refine .push _ _ (.push _ _ (.push _ _ (.addArgument _ _ _ (.addBlock _ _ _ (.addBlock _ _ _ (.addBlock _ _ _
      (.new _))))) ?_) ?_) ?_
    all_goals decide
  have check : sharingCheck = true := by decide +kernel
  unfold sharingCheck at check
  split at check
  · rename_i g built
    obtain ⟨n, node, holds⟩ := (Option.any_eq_true _ _).mp check
    simp only [Bool.and_eq_true, beq_iff_eq, decide_eq_true_eq] at holds
    obtain ⟨⟨external, targets⟩, weights⟩ := holds
    obtain ⟨_, incoming, _, sum⟩ := (external_weights_add_up _ _ g func built).1 4 n node external
    exact ⟨func, g, n, built, node, external, targets, weights ▸ sum, incoming⟩
  · cases check

end Graph

end LoopDeps
