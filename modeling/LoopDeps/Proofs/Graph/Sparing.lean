import Mathlib.Data.List.Flatten
import LoopDeps.Proofs.Flow.Depending
import LoopDeps.Proofs.Graph.Extending
import LoopDeps.Proofs.Run.Outcomes
set_option autoImplicit false

/- The control edges of a body, written down at once: for each two-way branch one to every instruction of the blocks that
   depend on it, unless an earlier one of these instructions has a data edge to it. -/
namespace LoopDeps.ControlLinks

-- An instruction of a block that depends on a branch.
structure Dependent where
  branch : BlockId
  block : BlockId
  value : ValueId
deriving DecidableEq, Repr

-- The block lies on every way from some successor of the two-way branch, and not on every way from the branch.
def decides (f : Func) (pdom : PostDominates) (branch m : BlockId) : Bool :=
  (f.succ branch).length == 2 && m != branch && (f.succ branch).any (pdom m) && !pdom m branch

-- A data edge leads from the node of one value to the node of the other.
def feeds (g : Graph) (value other : ValueId) : Bool :=
  g.edges.values.any fun e => e.kind == .data && g.nodeOf? value == some e.source && g.nodeOf? other == some e.target

-- Those that nothing before them feeds.
def unfed (g : Graph) (before : List Dependent) : List Dependent → List Dependent
  | [] => []
  | d :: rest =>
      if before.any fun y => feeds g y.value d.value then unfed g (before ++ [d]) rest
      else d :: unfed g (before ++ [d]) rest

section

variable (body : Body) (pdom : PostDominates) (g : Graph)

def dependentsIn (branch m : BlockId) : List Dependent :=
  if decides body.func pdom branch m then (instrsOf body m).map fun value => ⟨branch, m, value⟩ else []

-- In the order of the body, then of the instructions of a block.
def dependents (branch : BlockId) : List Dependent := body.blocks.flatMap (dependentsIn body pdom branch)

def needing (branch : BlockId) : List Dependent := unfed g [] (dependents body pdom branch)

-- The dependents that get an edge of their own.
def needed : List Dependent := body.blocks.flatMap (needing body pdom g)

def nodeFor (value : ValueId) : NodeId := (g.nodeOf? value).getD 0

-- The last instruction of a block.
def lastOf (branch : BlockId) : ValueId := ((instrsOf body branch).getLast?).getD 0

def onFirstArm (d : Dependent) : Bool := (body.func.succ d.branch)[1]?.all fun second => !pdom d.block second

def edgeFor (position : Nat) (d : Dependent) : Edge :=
  ⟨g.lastEdge + position + 1, .control (onFirstArm body pdom d), g.weightOf (nodeFor g d.value),
   nodeFor g (lastOf body d.branch), nodeFor g d.value, false⟩

def edgesFor (ds : List Dependent) : List Edge := ds.mapIdx (edgeFor body pdom g)

end

theorem feeds_iff (g : Graph) (value other : ValueId) :
    feeds g value other = true ↔ ∃ id e, g.edges.get? id = some e ∧ e.kind = .data ∧
      g.nodeOf? value = some e.source ∧ g.nodeOf? other = some e.target := by
  simp only [feeds, List.any_eq_true, Bool.and_eq_true, beq_iff_eq]
  constructor
  · rintro ⟨e, member, ⟨data, source⟩, target⟩
    obtain ⟨id, found⟩ := Table.mem_values.mp member
    exact ⟨id, e, found, data, source, target⟩
  · rintro ⟨id, e, found, data, source, target⟩
    exact ⟨e, Table.mem_values.mpr ⟨id, found⟩, ⟨data, source⟩, target⟩

theorem unfed_append (g : Graph) (before ds more : List Dependent) :
    unfed g before (ds ++ more) = unfed g before ds ++ unfed g (before ++ ds) more := by
  induction ds generalizing before with
  | nil => rw [List.nil_append, List.append_nil]; rfl
  | cons d rest ih =>
      rw [List.cons_append, unfed, unfed, ih, List.append_assoc, List.singleton_append]
      split
      · rfl
      · rfl

theorem unfed_sublist (g : Graph) (before ds : List Dependent) : (unfed g before ds).Sublist ds := by
  induction ds generalizing before with
  | nil => exact List.Sublist.refl []
  | cons d rest ih =>
      rw [unfed]
      split
      · exact (ih _).cons d
      · exact (ih _).cons_cons d

-- A split of a list is at its first entry or behind it.
theorem split_cons_iff (first d : Dependent) (rest : List Dependent) (holds : List Dependent → Prop) :
    (∃ front back, first :: rest = front ++ d :: back ∧ holds front) ↔
      (first = d ∧ holds []) ∨ ∃ front back, rest = front ++ d :: back ∧ holds (first :: front) := by
  constructor
  · rintro ⟨front, back, split, held⟩
    cases front with
    | nil => exact Or.inl ⟨(List.cons.inj split).1, held⟩
    | cons other front =>
        obtain ⟨rfl, later⟩ := List.cons.inj split
        exact Or.inr ⟨front, back, later, held⟩
  · rintro (⟨rfl, held⟩ | ⟨front, back, rfl, held⟩)
    · exact ⟨[], rest, rfl, held⟩
    · exact ⟨first :: front, back, rfl, held⟩

theorem mem_unfed (g : Graph) (before ds : List Dependent) (d : Dependent) :
    d ∈ unfed g before ds ↔ ∃ front back, ds = front ++ d :: back ∧
      ∀ y ∈ before ++ front, feeds g y.value d.value = false := by
  induction ds generalizing before with
  | nil => simp [unfed]
  | cons first rest ih =>
      rw [unfed, split_cons_iff]
      have later := ih (before ++ [first])
      simp only [List.append_assoc, List.singleton_append] at later
      rw [← later, List.append_nil]
      by_cases fed : (before.any fun y => feeds g y.value first.value) = true
      · rw [if_pos fed]
        obtain ⟨y, member, feeding⟩ := List.any_eq_true.mp fed
        refine ⟨Or.inr, fun either => either.resolve_left ?_⟩
        rintro ⟨rfl, clear⟩
        rw [clear y member] at feeding
        cases feeding
      · rw [if_neg fed, List.mem_cons]
        refine or_congr_left ⟨?_, fun here => here.1.symm⟩
        rintro rfl
        refine ⟨rfl, fun y member => ?_⟩
        simpa using fun feeding => fed (List.any_eq_true.mpr ⟨y, member, feeding⟩)

section

variable (body : Body) (pdom : PostDominates)

structure Depends (d : Dependent) : Prop where
  branchListed : d.branch ∈ body.blocks
  twoWay : (body.func.succ d.branch).length = 2
  listed : d.block ∈ body.blocks
  other : d.block ≠ d.branch
  certain : ∃ s ∈ body.func.succ d.branch, pdom d.block s = true
  avoidable : pdom d.block d.branch = false
  member : d.value ∈ instrsOf body d.block

theorem mem_dependents (branch : BlockId) (listed : branch ∈ body.blocks) (d : Dependent) :
    d ∈ dependents body pdom branch ↔ Depends body pdom d ∧ d.branch = branch := by
  rw [dependents, List.mem_flatMap]
  constructor
  · rintro ⟨m, inBody, member⟩
    unfold dependentsIn at member
    split at member
    · rename_i decided
      obtain ⟨value, inBlock, rfl⟩ := List.mem_map.mp member
      simp only [decides, Bool.and_eq_true, beq_iff_eq, bne_iff_ne, List.any_eq_true, Bool.not_eq_true'] at decided
      obtain ⟨⟨⟨twoWay, other⟩, certain⟩, avoidable⟩ := decided
      exact ⟨⟨listed, twoWay, inBody, other, certain, avoidable, inBlock⟩, rfl⟩
    · cases member
  · rintro ⟨depends, rfl⟩
    refine ⟨d.block, depends.listed, ?_⟩
    have decided : decides body.func pdom d.branch d.block = true := by
      simp only [decides, Bool.and_eq_true, beq_iff_eq, bne_iff_ne, List.any_eq_true, Bool.not_eq_true']
      exact ⟨⟨⟨depends.twoWay, depends.other⟩, depends.certain⟩, depends.avoidable⟩
    rw [dependentsIn, if_pos decided]
    exact List.mem_map.mpr ⟨d.value, depends.member, rfl⟩

-- The arm that the linker goes by.
theorem depends_on_decided (branch m : BlockId) (value : ValueId) (twoWay : (body.func.succ branch).length = 2) :
    dependsOn pdom (body.func.succ branch) branch m =
      if decides body.func pdom branch m then some (onFirstArm body pdom ⟨branch, m, value⟩) else none := by
  obtain ⟨first, second, two⟩ := List.length_eq_two.mp twoWay
  by_cases same : m = branch
  · simp [dependsOn, decides, same]
  · rw [two, depends_on_two pdom first second branch m same, decides, onFirstArm, two]
    by_cases certain : pdom m branch = true <;> by_cases right : pdom m second = true <;>
      by_cases left : pdom m first = true <;> simp [same, certain, right, left]

-- Both ends of the edge that a dependent may get have a node.
structure Known (g : Graph) (d : Dependent) : Prop where
  last : ∃ last id, (instrsOf body d.branch).getLast? = some last ∧ g.nodeOf? last = some id
  value : ∃ id, g.nodeOf? d.value = some id

variable (g : Graph) (well : g.WellFormed)

-- The graph and the progress when the branches before are through with `settled`, and `before` are met at this one.
structure Standing (settled before : List Dependent) (state : Progress) (h : Graph) : Prop where
  controlled : Controlled g h
  graph : h = g.extended (edgesFor body pdom g (settled ++ unfed g [] before))
  met : state.dependents.map some = before.map fun d => g.nodeOf? d.value
  added : state.added = (unfed g [] before).length

theorem edges_for_concat (ds : List Dependent) (d : Dependent) :
    edgesFor body pdom g (ds ++ [d]) = edgesFor body pdom g ds ++ [edgeFor body pdom g ds.length d] :=
  List.mapIdx_concat

include well in
-- The linker asks the graph at hand, whose data edges are those of before.
theorem met_feeds (settled before : List Dependent) (state : Progress) (h : Graph)
    (standing : Standing body pdom g settled before state h) (value : ValueId) (x : NodeId)
    (known : g.nodeOf? value = some x) :
    (state.dependents.any fun p => h.hasDataEdge p x) = before.any fun y => feeds g y.value value := by
  have mirrored := (controlled_well_formed g h well standing.controlled).mirrored
  have each : ∀ y, ((g.nodeOf? y).any fun p => h.hasDataEdge p x) = feeds g y value := by
    intro y
    rw [Bool.eq_iff_iff, Option.any_eq_true, feeds_iff]
    constructor
    · rintro ⟨p, node, held⟩
      obtain ⟨id, e, found, data, rfl, rfl⟩ := (h.has_data_edge_iff mirrored p x).mp held
      refine ⟨id, e, (controlled_edges g h standing.controlled id e found).resolve_right ?_, data, node, known⟩
      rw [data]
      exact nofun
    · rintro ⟨id, e, found, data, source, target⟩
      cases Option.some.inj (known.symm.trans target)
      have held := controlled_kept g h well standing.controlled id e found
      exact ⟨e.source, source, (h.has_data_edge_iff mirrored _ _).mpr ⟨id, e, held, data, rfl, rfl⟩⟩
  calc (state.dependents.any fun p => h.hasDataEdge p x)
      = (state.dependents.map some).any fun node => node.any fun p => h.hasDataEdge p x := by rw [List.any_map]; rfl
    _ = before.any fun y => (g.nodeOf? y.value).any fun p => h.hasDataEdge p x := by
      rw [standing.met, List.any_map]
      rfl
    _ = before.any fun y => feeds g y.value value := by simp only [each]

include well in
theorem link_instr_stands (settled before : List Dependent) (state : Progress) (h : Graph)
    (standing : Standing body pdom g settled before state h) (d : Dependent) (terminator : NodeId)
    (isEnd : g.nodeOf? (lastOf body d.branch) = some terminator) :
    (linkInstr terminator (onFirstArm body pdom d) state d.value).Leads h
      (fun after next => Standing body pdom g settled (before ++ [d]) after next) fun _ _ => True := by
  have values := (controlled_frame g h standing.controlled).2
  have wellHere := controlled_well_formed g h well standing.controlled
  refine Edit.leads_get _ h ?_
  cases here : h.nodeOf? d.value with
  | none => trivial
  | some x =>
      have known : g.nodeOf? d.value = some x := by rw [← here, Graph.nodeOf?, Graph.nodeOf?, values]
      have met : (state.dependents ++ [x]).map some = (before ++ [d]).map fun d => g.nodeOf? d.value := by
        rw [List.map_append, List.map_append, standing.met, List.map_singleton, List.map_singleton, known]
      have more : unfed g [] (before ++ [d]) =
          unfed g [] before ++ if before.any fun y => feeds g y.value d.value then [] else [d] := by
        rw [unfed_append, List.nil_append, unfed, unfed]
      have asked := met_feeds body pdom g well settled before state h standing d.value x known
      by_cases fed : (before.any fun y => feeds g y.value d.value) = true
      · rw [if_pos fed, List.append_nil] at more
        simp only [asked, fed, if_true]
        exact ⟨standing.controlled, more ▸ standing.graph, met, more ▸ standing.added⟩
      · rw [if_neg fed] at more
        simp only [asked, fed, Bool.false_eq_true, if_false]
        refine Edit.leads_then _ _ h (Edit.add_edge_leads terminator x _ _ h) ?_
        rintro _ next ⟨source, target, rfl⟩
        refine ⟨.more h standing.controlled terminator x _ _ source target, ?_, met, ?_⟩
        · have size : (edgesFor body pdom g (settled ++ unfed g [] before)).length = (settled ++ unfed g [] before).length :=
            List.length_mapIdx
          have here : nodeFor g d.value = x := by rw [nodeFor, known, Option.getD_some]
          have start : nodeFor g (lastOf body d.branch) = terminator := by rw [nodeFor, isEnd, Option.getD_some]
          rw [more, ← List.append_assoc, edges_for_concat, edgeFor, here, start, standing.graph,
            Graph.weight_of_extended, Graph.attach_extended g well.indexed, size]
        · rw [more, List.length_append, ← standing.added]
          rfl

include well in
theorem link_block_stands (settled before : List Dependent) (state : Progress) (h : Graph)
    (standing : Standing body pdom g settled before state h) (branch m : BlockId) (terminator : NodeId)
    (twoWay : (body.func.succ branch).length = 2) (isEnd : g.nodeOf? (lastOf body branch) = some terminator) :
    (linkBlock body pdom branch terminator state m).Leads h
      (fun after next => Standing body pdom g settled (before ++ dependentsIn body pdom branch m) after next)
      fun _ _ => True := by
  have arm := depends_on_decided body pdom branch m 0 twoWay
  unfold linkBlock
  by_cases decided : decides body.func pdom branch m = true
  · rw [if_pos decided] at arm
    rw [dependentsIn, if_pos decided]
    simp only [arm]
    refine Edit.leads_fold_along (instrsOf body m) (linkInstr terminator _)
      (fun done after next => Standing body pdom g settled (before ++ done.map fun value => ⟨branch, m, value⟩) after next)
      ?_ state h (by rwa [List.map_nil, List.append_nil])
    intro done value rest _ after next held
    rw [List.map_append, ← List.append_assoc]
    exact link_instr_stands body pdom g well settled _ after next held ⟨branch, m, value⟩ terminator isEnd
  · rw [if_neg decided] at arm
    rw [dependentsIn, if_neg decided, List.append_nil]
    simp only [arm]
    exact standing

-- The graph and the count when `branches` are through, after those with `settled`.
structure Served (settled : List Dependent) (branches : List BlockId) (count : Nat) (next : Graph) : Prop where
  controlled : Controlled g next
  graph : next = g.extended (edgesFor body pdom g (settled ++ branches.flatMap (needing body pdom g)))
  count : count = (branches.flatMap (needing body pdom g)).length
  known : ∀ branch ∈ branches, ∀ d ∈ dependents body pdom branch, Known body g d

theorem no_dependents (branch : BlockId) (narrow : (body.func.succ branch).length ≠ 2) :
    dependents body pdom branch = [] := by
  rw [dependents, List.flatMap_eq_nil_iff]
  intro m _
  rw [dependentsIn, if_neg]
  simp [decides, narrow]

theorem served_idle (settled : List Dependent) (branch : BlockId) (h : Graph) (controlled : Controlled g h)
    (graph : h = g.extended (edgesFor body pdom g settled)) (narrow : (body.func.succ branch).length ≠ 2) :
    Served body pdom g settled [branch] 0 h := by
  have nobody : dependents body pdom branch = [] := no_dependents body pdom branch narrow
  have idle : [branch].flatMap (needing body pdom g) = [] := by rw [List.flatMap_singleton, needing, nobody, unfed]
  refine ⟨controlled, by rw [idle, List.append_nil, ← graph], by rw [idle]; rfl, ?_⟩
  intro other here d member
  rw [List.mem_singleton.mp here, nobody] at member
  cases member

theorem standing_known (settled before : List Dependent) (state : Progress) (h : Graph)
    (standing : Standing body pdom g settled before state h) (d : Dependent) (member : d ∈ before) :
    ∃ id, g.nodeOf? d.value = some id := by
  have listed : g.nodeOf? d.value ∈ state.dependents.map some :=
    standing.met ▸ List.mem_map.mpr ⟨d, member, rfl⟩
  obtain ⟨id, _, same⟩ := List.mem_map.mp listed
  exact ⟨id, same.symm⟩

include well in
theorem link_branch_serves (settled : List Dependent) (branch : BlockId) (listed : branch ∈ body.blocks) (h : Graph)
    (controlled : Controlled g h) (graph : h = g.extended (edgesFor body pdom g settled)) :
    (linkBranch body pdom branch).Leads h (fun count next => Served body pdom g settled [branch] count next)
      fun _ _ => True := by
  unfold linkBranch
  cases here : body.func.block? branch with
  | none => exact served_idle body pdom g settled branch h controlled graph (by simp [Func.succ, here])
  | some block =>
      have succ : body.func.succ branch = block.succ := by rw [Func.succ, here, Option.elim_some]
      dsimp only
      by_cases wide : block.succ.length > 2
      · rw [if_pos wide]
        trivial
      rw [if_neg wide]
      by_cases short : block.succ.length < 2
      · rw [if_pos short]
        exact served_idle body pdom g settled branch h controlled graph (succ ▸ Nat.ne_of_lt short)
      rw [if_neg short]
      apply Edit.leads_get
      cases last : block.instrs.getLast?.bind h.nodeOf? with
      | none => trivial
      | some terminator =>
          obtain ⟨value, isLast, known⟩ := Option.bind_eq_some_iff.mp last
          rw [Graph.nodeOf?, (controlled_frame g h controlled).2] at known
          have isLast : (instrsOf body branch).getLast? = some value := by rw [instrsOf, here, Option.elim_some, isLast]
          have isEnd : g.nodeOf? (lastOf body branch) = some terminator := by rw [lastOf, isLast, Option.getD_some]; exact known
          have twoWay : (body.func.succ branch).length = 2 := by rw [succ]; omega
          have start : Standing body pdom g settled [] ⟨[], 0⟩ h :=
            ⟨controlled, by rw [unfed, List.append_nil, ← graph], rfl, rfl⟩
          refine Edit.leads_then _ _ h (Edit.leads_fold_along body.blocks (linkBlock body pdom branch terminator)
            (fun done after next => Standing body pdom g settled (done.flatMap (dependentsIn body pdom branch)) after next)
            ?_ ⟨[], 0⟩ h start) ?_
          · intro done m rest _ after next held
            rw [List.flatMap_append, List.flatMap_singleton]
            exact link_block_stands body pdom g well settled _ after next held branch m terminator twoWay isEnd
          · intro after next held
            have served : [branch].flatMap (needing body pdom g) = unfed g [] (dependents body pdom branch) :=
              List.flatMap_singleton ..
            refine ⟨held.controlled, served ▸ held.graph, served ▸ held.added, ?_⟩
            intro other same d member
            rw [List.mem_singleton.mp same] at member
            have sameBranch := ((mem_dependents body pdom branch listed d).mp member).2
            exact ⟨⟨value, terminator, sameBranch ▸ isLast, known⟩,
              standing_known body pdom g settled _ after next held d member⟩

include well in
theorem link_branches_serve (branches : List BlockId) (listed : ∀ branch ∈ branches, branch ∈ body.blocks)
    (settled : List Dependent) (h : Graph) (controlled : Controlled g h)
    (graph : h = g.extended (edgesFor body pdom g settled)) :
    (linkBranches body pdom branches).Leads h (fun count next => Served body pdom g settled branches count next)
      fun _ _ => True := by
  induction branches generalizing settled h with
  | nil => exact ⟨controlled, by rw [List.flatMap_nil, List.append_nil, ← graph], rfl, fun _ member => nomatch member⟩
  | cons branch rest ih =>
      refine Edit.leads_then _ _ h
        (link_branch_serves body pdom g well settled branch (listed branch List.mem_cons_self) h controlled graph) ?_
      intro here middle first
      have graph := first.graph
      rw [List.flatMap_singleton] at graph
      refine Edit.leads_then _ _ middle (ih (fun other member => listed other (List.mem_cons_of_mem _ member)) _ middle
        first.controlled graph) ?_
      intro later next second
      refine ⟨second.controlled, ?_, ?_, ?_⟩
      · rw [second.graph, List.flatMap_cons, List.append_assoc]
      · rw [first.count, second.count, List.flatMap_singleton, List.flatMap_cons, List.length_append]
      · intro other member d dependent
        rcases List.mem_cons.mp member with rfl | later
        · exact first.known other List.mem_cons_self d dependent
        · exact second.known other later d dependent

-- What the pass leaves when it ends well.
structure Spared (added : Bool) (next : Graph) : Prop where
  controlled : Controlled g next
  added : added = !(needed body pdom g).isEmpty
  graph : next = g.extended (edgesFor body pdom g (needed body pdom g))
  known : ∀ branch ∈ body.blocks, ∀ d ∈ dependents body pdom branch, Known body g d

include well in
theorem pass_spares : (pass body pdom).Leads g (fun added next => Spared body pdom g added next) fun _ _ => True := by
  have start : g = g.extended (edgesFor body pdom g []) := g.extended_none.symm
  refine Edit.leads_then _ _ g
    (link_branches_serve body pdom g well body.blocks (fun _ member => member) [] g .same start) ?_
  intro count next served
  refine ⟨served.controlled, ?_, served.graph, served.known⟩
  rw [served.count, ← needed]
  cases needed body pdom g <;> rfl

-- The edge of a dependent, when `position` others were added before it.
structure Drawn (position : Nat) (d : Dependent) (e : Edge) : Prop where
  id : e.id = g.lastEdge + position + 1
  source : ∃ last, (instrsOf body d.branch).getLast? = some last ∧ g.nodeOf? last = some e.source
  target : g.nodeOf? d.value = some e.target
  weight : ∃ n, g.nodes.get? e.target = some n ∧ e.weight = n.weight
  kind : ∃ first second, body.func.succ d.branch = [first, second] ∧ e.kind = .control (!pdom d.block second)
  unmarked : e.backedge = false

include well in
theorem edge_for_drawn (position : Nat) (d : Dependent) (depends : Depends body pdom d) (known : Known body g d) :
    Drawn body pdom g position d (edgeFor body pdom g position d) := by
  obtain ⟨⟨last, terminator, isLast, source⟩, x, target⟩ := known
  obtain ⟨first, second, two⟩ := List.length_eq_two.mp depends.twoWay
  obtain ⟨n, node, _⟩ := well.indexed.valueNodes d.value x target
  have into : nodeFor g d.value = x := by rw [nodeFor, target, Option.getD_some]
  have out : nodeFor g (lastOf body d.branch) = terminator := by
    rw [lastOf, isLast, Option.getD_some, nodeFor, source, Option.getD_some]
  refine ⟨rfl, ⟨last, isLast, ?_⟩, ?_, ⟨n, ?_, ?_⟩, ⟨first, second, two, ?_⟩, rfl⟩
  · rw [source, edgeFor, out]
  · rw [target, edgeFor, into]
  · rw [edgeFor, into, node]
  · rw [edgeFor, into, Graph.weightOf, node, Option.elim_some]
  · rw [edgeFor, onFirstArm, two]
    rfl

theorem edges_for_ids (ds : List Dependent) (position : Nat) (e : Edge)
    (here : (edgesFor body pdom g ds)[position]? = some e) : e.id = g.lastEdge + position + 1 := by
  rw [edgesFor, List.getElem?_mapIdx] at here
  obtain ⟨d, _, rfl⟩ := Option.map_eq_some_iff.mp here
  rfl

include well in
theorem spared_edge_values (added : Bool) (next : Graph) (spared : Spared body pdom g added next) :
    next.edges.values = g.edges.values ++ edgesFor body pdom g (needed body pdom g) := by
  rw [spared.graph]
  exact (g.extended_edge_values well _ (edges_for_ids body pdom g _)).1

-- One dependent of a branch comes before another.
def Earlier (y d : Dependent) : Prop :=
  ∃ front back, dependents body pdom d.branch = front ++ d :: back ∧ y ∈ front

theorem mem_needed (d : Dependent) :
    d ∈ needed body pdom g ↔ Depends body pdom d ∧ ∃ front back, dependents body pdom d.branch = front ++ d :: back ∧
      ∀ y ∈ front, feeds g y.value d.value = false := by
  rw [needed, List.mem_flatMap]
  constructor
  · rintro ⟨branch, listed, member⟩
    obtain ⟨depends, rfl⟩ := (mem_dependents body pdom branch listed d).mp ((unfed_sublist g [] _).mem member)
    exact ⟨depends, (mem_unfed g [] _ d).mp member⟩
  · rintro ⟨depends, clear⟩
    exact ⟨d.branch, depends.branchListed, (mem_unfed g [] _ d).mpr clear⟩

include well in
-- The edge of a dependent that needs one is there, under an id that was free.
theorem spared_edge (added : Bool) (next : Graph) (spared : Spared body pdom g added next) (position : Nat)
    (d : Dependent) (here : (needed body pdom g)[position]? = some d) :
    ∃ e, (edgesFor body pdom g (needed body pdom g))[position]? = some e ∧ Drawn body pdom g position d e ∧
      g.edges.get? e.id = none ∧ next.edges.get? e.id = some e := by
  have depends := ((mem_needed body pdom g d).mp (List.mem_of_getElem? here)).1
  have member := (mem_dependents body pdom d.branch depends.branchListed d).mpr ⟨depends, rfl⟩
  have drawn := edge_for_drawn body pdom g well position d depends (spared.known d.branch depends.branchListed d member)
  have listed : (edgesFor body pdom g (needed body pdom g))[position]? = some (edgeFor body pdom g position d) := by
    rw [edgesFor, List.getElem?_mapIdx, here, Option.map_some]
  refine ⟨edgeFor body pdom g position d, listed, drawn, ?_, ?_⟩
  · refine Option.eq_none_iff_forall_ne_some.mpr fun old found => ?_
    have below := Graph.edge_below g well _ old found
    rw [drawn.id] at below
    exact absurd below (Nat.not_lt_of_le (Nat.succ_le_succ (Nat.le_add_right g.lastEdge position)))
  · have made : edgeFor body pdom g position d ∈ next.edges.values := by
      rw [spared_edge_values body pdom g well added next spared]
      exact List.mem_append_right _ (List.mem_of_getElem? listed)
    obtain ⟨key, found⟩ := Table.mem_values.mp made
    rw [(controlled_well_formed g next well spared.controlled).mirrored.edgeKeys key _ found]
    exact found

theorem needed_sublist : (needed body pdom g).Sublist (body.blocks.flatMap (dependents body pdom)) :=
  List.Sublist.flatMap_right _ fun branch _ => unfed_sublist g [] (dependents body pdom branch)

theorem dependents_in_nodup (branch m : BlockId) (once : (instrsOf body m).Nodup) :
    (dependentsIn body pdom branch m).Nodup := by
  unfold dependentsIn
  split
  · exact once.map fun value other same => congrArg Dependent.value same
  · exact List.nodup_nil

theorem in_block (branch m : BlockId) (d : Dependent) (member : d ∈ dependentsIn body pdom branch m) :
    d.branch = branch ∧ d.block = m := by
  unfold dependentsIn at member
  split at member
  · obtain ⟨value, _, rfl⟩ := List.mem_map.mp member
    exact ⟨rfl, rfl⟩
  · cases member

theorem dependents_nodup (listed : (body.func.blocks.flatMap Block.instrs).Nodup) (blocks : body.blocks.Nodup) :
    (body.blocks.flatMap (dependents body pdom)).Nodup := by
  have each : ∀ m, (instrsOf body m).Nodup := by
    intro m
    unfold instrsOf
    cases here : body.func.block? m with
    | none => exact List.nodup_nil
    | some block => exact (List.nodup_flatMap.mp listed).1 block (List.mem_of_getElem? here)
  have inBranch : ∀ branch d, d ∈ dependents body pdom branch → d.branch = branch := by
    intro branch d member
    obtain ⟨m, _, here⟩ := List.mem_flatMap.mp member
    exact (in_block body pdom branch m d here).1
  refine List.nodup_flatMap.mpr ⟨fun branch _ => List.nodup_flatMap.mpr ⟨?_, ?_⟩, ?_⟩
  · exact fun m _ => dependents_in_nodup body pdom branch m (each m)
  · refine blocks.imp fun {m other} different d here there => different ?_
    exact (in_block body pdom branch m d here).2.symm.trans (in_block body pdom branch other d there).2
  · refine blocks.imp fun {branch other} different d here there => different ?_
    exact (inBranch branch d here).symm.trans (inBranch other d there)

-- A dependent stands at one place only, so that it is clear which others are earlier.
theorem needed_iff_unfed (once : (body.blocks.flatMap (dependents body pdom)).Nodup) (d : Dependent) :
    d ∈ needed body pdom g ↔
      Depends body pdom d ∧ ∀ y, Earlier body pdom y d → feeds g y.value d.value = false := by
  rw [mem_needed]
  refine and_congr_right fun depends => ?_
  have single := (List.nodup_flatMap.mp once).1 d.branch depends.branchListed
  constructor
  · rintro ⟨front, back, split, clear⟩ y ⟨other, rest, again, before⟩
    have same : front ++ d :: back = other ++ d :: rest := split.symm.trans again
    rw [again] at single
    have apart := List.nodup_middle.mp single
    have new := (List.nodup_cons.mp apart).1
    obtain ⟨rfl, _⟩ := (List.append_cons_inj_of_notMem (fun member => new (List.mem_append_left rest member))
      fun member => new (List.mem_append_right other member)).mp same.symm
    exact clear y before
  · intro clear
    have member := (mem_dependents body pdom d.branch depends.branchListed d).mpr ⟨depends, rfl⟩
    obtain ⟨front, back, split⟩ := List.append_of_mem member
    exact ⟨front, back, split, fun y before => clear y ⟨front, back, split, before⟩⟩

end

theorem narrow_pass_ends_well (body : Body) (pdom : PostDominates) (sound : body.func.Sound)
    (narrow : ∀ branch ∈ body.blocks, (body.func.succ branch).length ≤ 2) (start linked : Graph)
    (placed : Graph.Placed body.instrs start) (supplied : DataLinks.Supplied body.func start body.dataOperands
      body.dataOperands.length linked) :
    ∃ added next, (pass body pdom).run linked = .ok added next := by
  have leads := pass_leads body pdom linked supplied.well
  unfold Edit.Leads at leads
  cases ran : (pass body pdom).run linked with
  | ok added next => exact ⟨added, next, rfl⟩
  | error error next =>
      rw [ran] at leads
      obtain ⟨block, ⟨before, branch, after, split, wide, _⟩, _⟩ := leads.2
        (Graph.covered_linked body sound start linked placed _ _ supplied) (Graph.ended_of_sound body sound)
      have short := narrow branch (by simp [split])
      rw [Func.succ, wide.1, Option.elim_some] at short
      exact absurd wide.2 (Nat.not_lt_of_le short)

-- On the graph of a body with its data links, the pass adds one edge for each dependent that no earlier one feeds.
theorem edges_where_needed (body : Body) (pdom : PostDominates) (built : body.func.Built)
    (listed : (body.func.blocks.flatMap Block.instrs).Nodup) (blocks : body.blocks.Nodup)
    (narrow : ∀ branch ∈ body.blocks, (body.func.succ branch).length ≤ 2) (filled : body.instrs ≠ []) :
    ∃ linked, DataLinks.supplied? body = some linked ∧
      (pass body pdom).run linked = .ok (!(needed body pdom linked).isEmpty)
        (linked.extended (edgesFor body pdom linked (needed body pdom linked))) ∧
      (linked.extended (edgesFor body pdom linked (needed body pdom linked))).edges.values =
        linked.edges.values ++ edgesFor body pdom linked (needed body pdom linked) ∧
      (∀ position d, (needed body pdom linked)[position]? = some d → ∃ e,
        (edgesFor body pdom linked (needed body pdom linked))[position]? = some e ∧
          Drawn body pdom linked position d e) ∧
      (∀ d, d ∈ needed body pdom linked ↔
        Depends body pdom d ∧ ∀ y, Earlier body pdom y d → feeds linked y.value d.value = false) ∧
      (needed body pdom linked).Sublist (body.blocks.flatMap (dependents body pdom)) ∧
      (body.blocks.flatMap (dependents body pdom)).Nodup := by
  have once := dependents_nodup body pdom listed blocks
  rcases Graph.of_body_cases body with ⟨nothing, _⟩ | ⟨_, start, started⟩
  · exact absurd nothing filled
  have placed := Graph.of_body_placed body start started
  obtain ⟨linked, linkRan, supplied⟩ := DataLinks.pass_supplies body start placed
  have made : DataLinks.supplied? body = some linked := by simp only [DataLinks.supplied?, started, linkRan]
  obtain ⟨added, next, ran⟩ := narrow_pass_ends_well body pdom (Func.built_sound body.func built) narrow start linked
    placed supplied
  have spared := Edit.of_leads _ _ _ _ (pass_spares body pdom linked supplied.well) ran
  refine ⟨linked, made, ?_, ?_, ?_, needed_iff_unfed body pdom linked once, needed_sublist body pdom linked, once⟩
  · rw [ran, ← spared.added, ← spared.graph]
  · rw [← spared.graph]
    exact spared_edge_values body pdom linked supplied.well added next spared
  · intro position d here
    obtain ⟨e, listed, drawn, _⟩ := spared_edge body pdom linked supplied.well added next spared position d here
    exact ⟨e, listed, drawn⟩

-- A branch of two arms. The second one takes what the first one makes of a loaded value.
def crossing : Func :=
  let blocks := (((((Func.new "cross").addBlock "head" 1.0).1.addBlock "left" 1.0).1.addBlock "right" 1.0).1.addBlock
    "latch" 1.0).1
  let argument := (blocks.addArgument "p" .ptr).1
  let condition := (argument.push ⟨some "c", "icmp", .int 1, [0, 0], [], 0⟩).1
  let head := (condition.push ⟨none, "br", .void, [1], [1, 2], 0⟩).1
  let loaded := (head.push ⟨some "y", "load", .int 32, [0], [], 1⟩).1
  let doubled := (loaded.push ⟨some "x", "add", .int 32, [3, 3], [], 1⟩).1
  let left := (doubled.push ⟨none, "br", .void, [], [3], 1⟩).1
  let taken := (left.push ⟨some "w", "add", .int 32, [4, 1], [], 2⟩).1
  let right := (taken.push ⟨none, "br", .void, [], [3], 2⟩).1
  (right.push ⟨none, "br", .void, [], [0], 3⟩).1.link

def crossingBody : Body := ⟨0, crossing, [0, 1, 2, 3]⟩

def meeting : PostDominates := fun m b => m == b || m == 3

def crossingCheck : Bool :=
  (DataLinks.supplied? crossingBody).any fun g =>
    (edgesFor crossingBody meeting g (needed crossingBody meeting g)).map (fun e => (e.id, e.kind, e.source, e.target)) ==
      [(9, .control true, 2, 3), (10, .control true, 2, 5), (11, .control false, 2, 7)]

-- The loaded value and the two branches get edges. The sum is fed by the loaded value, and its user by the sum.
theorem crossing_edges :
    crossing.Built ∧ (crossing.blocks.flatMap Block.instrs).Nodup ∧ crossingBody.instrs ≠ [] ∧
      ∃ linked next added, DataLinks.supplied? crossingBody = some linked ∧
        (pass crossingBody meeting).run linked = .ok true next ∧
        next.edges.values = linked.edges.values ++ added ∧
        added.map (fun e => (e.id, e.kind, e.source, e.target)) =
          [(9, .control true, 2, 3), (10, .control true, 2, 5), (11, .control false, 2, 7)] := by
  have built : crossing.Built := by
    refine .link _ (.push _ _ (.push _ _ (.push _ _ (.push _ _ (.push _ _ (.push _ _ (.push _ _ (.push _ _ (.addArgument
      _ _ _ (.addBlock _ _ _ (.addBlock _ _ _ (.addBlock _ _ _ (.addBlock _ _ _ (.new _))))))
        ?_) ?_) ?_) ?_) ?_) ?_) ?_) ?_) ?_
    all_goals decide
  have listed : (crossing.blocks.flatMap Block.instrs).Nodup := by decide
  have filled : crossingBody.instrs ≠ [] := by
    have ids : crossingBody.ids = [1, 2, 3, 4, 5, 6, 7, 8] := by decide
    intro empty
    rw [Body.ids, empty] at ids
    cases ids
  have check : crossingCheck = true := by decide +kernel
  obtain ⟨linked, made, ran, values, _⟩ :=
    edges_where_needed crossingBody meeting built listed (by decide) (by decide) filled
  rw [crossingCheck, made, Option.any_some, beq_iff_eq] at check
  have added : (needed crossingBody meeting linked).isEmpty = false := by
    refine Bool.eq_false_iff.mpr fun empty => ?_
    rw [List.isEmpty_iff.mp empty] at check
    cases check
  rw [added] at ran
  exact ⟨built, listed, filled, linked, _, _, made, ran, values, check⟩

end LoopDeps.ControlLinks
