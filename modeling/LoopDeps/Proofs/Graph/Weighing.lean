import LoopDeps.Proofs.Graph.Tracing
set_option autoImplicit false

/- What an edge weighs. An edge has the weight of its target, and the weight of a value from outside is the sum
   of the weights of its edges, added up in the order they are listed in. Between the change of such a weight
   and the edge it stands for, the edge is owed. -/
namespace LoopDeps

namespace Graph

-- A sum that starts from its first term.
def leftSum? : List Float → Option Float
  | [] => none
  | first :: rest => some (rest.foldl (· + ·) first)

theorem left_sum_append (terms : List Float) (last sum : Float) (before : leftSum? terms = some sum) :
    leftSum? (terms ++ [last]) = some (sum + last) := by
  cases terms with
  | nil => cases before
  | cons first rest =>
      cases before
      rw [List.cons_append, leftSum?, List.foldl_append]
      rfl

-- What an edge adds to the weight of a source from outside.
abbrev Load := Dependence × Float

def loads (g : Graph) (n : Node) : List Load := (g.outgoing n).map fun e => (e.kind, e.weight)

def Settled (loads : List Load) (weight : Float) : Prop :=
  (∀ load ∈ loads, load.1 = .data) ∧ leftSum? (loads.map Prod.snd) = some weight

theorem settled_more (loads : List Load) (weight more : Float) (settled : Settled loads weight) :
    Settled (loads ++ [(.data, more)]) (weight + more) := by
  refine ⟨?_, ?_⟩
  · intro load member
    rcases List.mem_append.mp member with before | last
    · exact settled.1 load before
    · rw [List.mem_singleton.mp last]
  · rw [List.map_append]
    exact left_sum_append _ more weight settled.2

-- The loads that the edge from `source` brings to the nodes.
def owing (source : NodeId) (load : Load) (key : NodeId) : List Load := if key = source then [load] else []

def nothing (_ : NodeId) : List Load := []

-- The instruction at `key` has this weight.
def Stands (g : Graph) (key : NodeId) (weight : Float) : Prop :=
  ∃ n, g.nodes.get? key = some n ∧ n.kind = .instruction ∧ n.weight = weight

structure Weighed (owed : NodeId → List Load) (g : Graph) : Prop where
  well : g.WellFormed
  targets : ∀ id e, g.edges.get? id = some e → g.Stands e.target e.weight
  balanced : ∀ key n, g.nodes.get? key = some n → n.kind = .external → Settled (g.loads n ++ owed key) n.weight

-- An instruction owes nothing, whatever edge is to come.
theorem weighed_owing (g : Graph) (weighed : g.Weighed nothing) (source : NodeId) (load : Load) (n : Node)
    (node : g.nodes.get? source = some n) (instruction : n.kind = .instruction) :
    g.Weighed (owing source load) := by
  refine ⟨weighed.well, weighed.targets, fun key m found external => ?_⟩
  have other : key ≠ source := by
    rintro rfl
    cases Option.some.inj (node.symm.trans found)
    rw [instruction] at external
    cases external
  rw [owing, if_neg other]
  exact weighed.balanced key m found external

-- The edges of a listing are as they were where the edges of the graph are.
theorem loads_same (g h : Graph) (n m : Node) (listing : m.outgoing = n.outgoing)
    (edges : ∀ id ∈ n.outgoing, (h.edges.get? id).map (fun e => (e.kind, e.weight)) =
      (g.edges.get? id).map fun e => (e.kind, e.weight)) : h.loads m = g.loads n := by
  rw [loads, loads, outgoing, outgoing, edgesOf, edgesOf, listing, List.map_filterMap, List.map_filterMap]
  exact List.filterMap_congr edges

theorem attach_loads (g : Graph) (well : g.WellFormed) (source target : NodeId) (kind : Dependence) (weight : Float)
    (key : NodeId) (n : Node) (node : g.nodes.get? key = some n) :
    (Edit.attach g source target kind weight).loads (n.joined key (g.newEdge source target kind weight)) =
      g.loads n ++ owing source (kind, weight) key := by
  have old : (Edit.attach g source target kind weight).loads n = g.loads n := by
    refine loads_same g _ n n rfl fun id member => ?_
    have present : id ≠ g.lastEdge + 1 := by
      rintro rfl
      exact not_listed_unrecorded g [] (hooked_of_well_formed g well) .source key n _ node (no_fresh_edge g well) member
    rw [get_attach_edge, if_neg present]
  rw [← old]
  simp only [loads, outgoing, edgesOf, Node.joined, List.filterMap_append, List.map_append]
  congr 1
  by_cases here : key = source
  · have fresh : (Edit.attach g source target kind weight).edges.get? (g.lastEdge + 1) =
        some (g.newEdge source target kind weight) := (get_attach_edge _ _ _ _ _ _).trans (if_pos rfl)
    rw [owing, if_pos here, newEdge, if_pos here, List.filterMap_cons, fresh]
    rfl
  · rw [owing, if_neg here, newEdge, if_neg here]
    rfl

theorem attach_stands (g : Graph) (source target : NodeId) (kind : Dependence) (weight : Float) (key : NodeId)
    (held : Float) (stands : g.Stands key held) : (Edit.attach g source target kind weight).Stands key held := by
  obtain ⟨n, node, instruction, same⟩ := stands
  exact ⟨n.joined key (g.newEdge source target kind weight), by rw [get_attach_node, node]; rfl, instruction, same⟩

-- The edge that was owed.
theorem attach_weighed (g : Graph) (source target : NodeId) (kind : Dependence) (weight : Float)
    (weighed : g.Weighed (owing source (kind, weight))) (sourceNode : ∃ n, g.nodes.get? source = some n)
    (stands : g.Stands target weight) : (Edit.attach g source target kind weight).Weighed nothing := by
  have targetNode : ∃ n, g.nodes.get? target = some n := stands.imp fun _ held => held.1
  refine ⟨attach_well_formed g source target kind weight weighed.well sourceNode targetNode, ?_, ?_⟩
  · intro id e found
    apply attach_stands
    rw [get_attach_edge] at found
    split at found
    · cases found
      exact stands
    · exact weighed.targets id e found
  · intro key joined found external
    rw [get_attach_node] at found
    obtain ⟨n, node, rfl⟩ := Option.map_eq_some_iff.mp found
    rw [attach_loads g weighed.well source target kind weight key n node, nothing, List.append_nil]
    exact weighed.balanced key n node external

theorem placed_weighed (instrs : List BodyInstr) (g : Graph) (placed : Placed instrs g) : g.Weighed nothing := by
  refine ⟨placed.well, ?_, ?_⟩
  · intro id e found
    rw [placed.noEdges] at found
    cases found
  · intro key n node external
    obtain ⟨i, _, rfl⟩ := placed_node instrs g placed key n node
    cases external

end Graph

namespace DataLinks

open LoopDeps.Graph

-- What linking keeps: the weights are right, with `owed` still to come, and no instruction changes its own.
def Kept (g : Graph) (owed : NodeId → List Load) (next : Graph) : Prop :=
  next.Weighed owed ∧ ∀ key weight, g.Stands key weight → next.Stands key weight

-- One more use of a value from outside, and the edge for it still to come.
theorem weighed_used (g : Graph) (weighed : g.Weighed nothing) (id : NodeId) (n : Node)
    (node : g.nodes.get? id = some n) (external : n.kind = .external) (weight : Float) :
    Kept g (owing id (.data, weight)) (g.modifyNode id fun n => { n with weight := n.weight + weight }) := by
  have nodes := get_used g id weight
  have same := used_same id weight
  have stands : ∀ key held, g.Stands key held →
      (g.modifyNode id fun n => { n with weight := n.weight + weight }).Stands key held := by
    rintro key held ⟨m, found, instruction, weighs⟩
    have other : key ≠ id := by
      rintro rfl
      cases Option.some.inj (node.symm.trans found)
      rw [external] at instruction
      cases instruction
    exact ⟨m, by rw [get_modify_node, found, Option.map_some, if_neg other], instruction, weighs⟩
  refine ⟨⟨used_well_formed g weighed.well id weight, ?_, ?_⟩, stands⟩
  · exact fun edge e found => stands _ _ (weighed.targets edge e found)
  · intro key used found outside
    obtain ⟨m, held, rfl⟩ := Option.map_eq_some_iff.mp ((nodes key).symm.trans found)
    have loads : Graph.loads (g.modifyNode id fun n => { n with weight := n.weight + weight })
        (usedAt id weight key m) = g.loads m := loads_same g _ m _ ((same key m).2.2 .source) fun _ _ => rfl
    have settled := weighed.balanced key m held ((same key m).2.1 ▸ outside)
    rw [nothing, List.append_nil] at settled
    rw [loads, owing]
    by_cases here : key = id
    · rw [if_pos here]
      simpa only [usedAt, if_pos here] using settled_more _ _ weight settled
    · rw [if_neg here, List.append_nil]
      simpa only [usedAt, if_neg here] using settled

-- The first use of a value gives its node, which has no other edge to come.
theorem weighed_met (g : Graph) (weighed : g.Weighed nothing) (value : ValueId) (label : String) (weight : Float) :
    Kept g (owing (g.lastNode + 1) (.data, weight))
      (g.withFresh.insertValueNode (Node.external (g.lastNode + 1) value label weight)) := by
  let n := Node.external (g.lastNode + 1) value label weight
  have nodes := get_insert_value_node g n
  have absent : g.nodes.get? n.id = none := no_fresh_node g weighed.well.indexed
  have stays : ∀ key m, g.nodes.get? key = some m → (g.withFresh.insertValueNode n).nodes.get? key = some m :=
    fun key m found => by rw [nodes, if_neg (present_ne g absent found), found]
  have stands : ∀ key held, g.Stands key held → (g.withFresh.insertValueNode n).Stands key held := by
    rintro key held ⟨m, found, rest⟩
    exact ⟨m, stays key m found, rest⟩
  refine ⟨⟨?_, fun edge e found => stands _ _ (weighed.targets edge e found), ?_⟩, stands⟩
  · refine insert_value_node_well_formed g n weighed.well rfl rfl fun side => ?_
    cases side <;> rfl
  · intro key m found external
    rw [nodes] at found
    split at found
    · rename_i here
      have here : key = g.lastNode + 1 := here
      cases found
      rw [owing, if_pos here]
      exact ⟨by simp [loads, outgoing, edgesOf, n, Node.external, Node.instruction], rfl⟩
    · rename_i other
      have other : key ≠ g.lastNode + 1 := other
      have settled := weighed.balanced key m found external
      rw [owing, if_neg other]
      exact settled

theorem producer_leads (f : Func) (weight : Float) (operand : ValueId) (g : Graph) (weighed : g.Weighed nothing) :
    (producerOf f weight operand).Leads g (fun producer next => Kept g (owing producer (.data, weight)) next)
      fun _ _ => True := by
  unfold producerOf
  apply Edit.leads_get
  cases known : g.nodeOf? operand with
  | none => exact weighed_met g weighed operand (f.valueName operand) weight
  | some producer =>
      refine Edit.leads_then _ _ g (Edit.get_node_leads producer g) ?_
      rintro n _ ⟨rfl, node⟩
      cases external : n.kind with
      | instruction =>
          have plain : ¬n.isExternal = true := by simp [Node.isExternal, external]
          rw [if_neg plain]
          exact ⟨weighed_owing _ weighed producer (.data, weight) n node external, fun _ _ stands => stands⟩
      | external =>
          have outside : n.isExternal = true := by simp [Node.isExternal, external]
          rw [if_pos outside]
          refine Edit.leads_then _ _ _ (Edit.change_node_leads producer _ _) ?_
          rintro _ _ rfl
          exact weighed_used _ weighed producer n node external weight

theorem operand_leads (f : Func) (consumer : NodeId) (weight : Float) (operand : ValueId) (g : Graph)
    (weighed : g.Weighed nothing) (stands : g.Stands consumer weight) :
    (linkOperand f consumer weight operand).Leads g (fun _ next => Kept g nothing next) fun _ _ => True := by
  refine Edit.leads_then _ _ g (producer_leads f weight operand g weighed) ?_
  rintro producer middle ⟨owing, kept⟩
  refine Edit.leads_then _ _ middle (Edit.add_edge_leads producer consumer .data weight middle) ?_
  rintro _ _ ⟨source, _, rfl⟩
  refine ⟨attach_weighed middle producer consumer .data weight owing source (kept consumer weight stands), ?_⟩
  exact fun key held before => attach_stands middle producer consumer .data weight key held (kept key held before)

theorem consumer_leads (f : Func) (consumer : NodeId) (weight : Float) (g : Graph) (weighed : g.Weighed nothing)
    (stands : g.Stands consumer weight) :
    (linkConsumer f consumer).Leads g (fun _ next => Kept g nothing next) fun _ _ => True := by
  refine Edit.leads_then _ _ g (Edit.get_node_leads consumer g) ?_
  rintro n _ ⟨rfl, node⟩
  obtain ⟨m, found, instruction, weighs⟩ := stands
  cases Option.some.inj (node.symm.trans found)
  rename_i next
  cases defined : f.instr? n.value with
  | none => trivial
  | some instr =>
      refine Edit.leads_then _ _ next (Edit.leads_for_each instr.dataOperands _ (Kept next nothing) ?_ next
        ⟨weighed, fun _ _ held => held⟩) fun _ _ kept => kept
      rintro operand _ h ⟨weighedHere, kept⟩
      refine Edit.leads_weaken _ h (operand_leads f consumer n.weight operand h weighedHere
        (kept consumer n.weight ⟨n, node, instruction, rfl⟩)) ?_ fun _ _ failed => failed
      exact fun _ _ more => ⟨more.1, fun key held before => more.2 key held (kept key held before)⟩

theorem consumers_leads (f : Func) (ids : List NodeId) (g : Graph) (weighed : g.Weighed nothing)
    (stand : ∀ id ∈ ids, ∃ weight, g.Stands id weight) :
    (linkConsumers f ids).Leads g (fun _ next => Kept g nothing next) fun _ _ => True := by
  induction ids generalizing g with
  | nil => exact ⟨weighed, fun _ _ held => held⟩
  | cons id rest ih =>
      obtain ⟨weight, stands⟩ := stand id List.mem_cons_self
      refine Edit.leads_then _ _ g (consumer_leads f id weight g weighed stands) ?_
      rintro _ middle ⟨weighedHere, kept⟩
      refine Edit.leads_then _ _ middle (ih middle weighedHere ?_) ?_
      · intro other member
        obtain ⟨held, before⟩ := stand other (List.mem_cons_of_mem _ member)
        exact ⟨held, kept other held before⟩
      · exact fun _ _ more => ⟨more.1, fun key held before => more.2 key held (kept key held before)⟩

theorem pass_weighs (body : Body) (g : Graph) (weighed : g.Weighed nothing) :
    (pass body).Leads g (fun _ next => next.Weighed nothing) fun _ _ => True := by
  refine Edit.leads_get _ g (Edit.leads_then _ _ g (consumers_leads body.func (consumers g) g weighed ?_)
    fun _ _ kept => kept.1)
  intro id member
  obtain ⟨n, held, rfl⟩ := List.mem_map.mp member
  obtain ⟨inTable, plain⟩ := List.mem_filter.mp held
  obtain ⟨key, node⟩ := Table.mem_values.mp inTable
  rw [weighed.well.indexed.nodeKeys key n node]
  simp only [Node.isPlain, Bool.and_eq_true, beq_iff_eq] at plain
  exact ⟨n.weight, n, node, plain.1, rfl⟩

end DataLinks

end LoopDeps
