import Mathlib.Data.Finset.Card
import Mathlib.Data.Finset.Insert
import LoopDeps.Graph.DataLinks
import LoopDeps.Proofs.Graph.Building
import LoopDeps.Proofs.Graph.Edits
set_option autoImplicit false

/- Data links of a placed body. Every operand gets one edge, and every value from outside of the body one
   node at its first use. -/
namespace LoopDeps

-- The instruction of `user` has `value` flowing into it.
def Takes (f : Func) (value user : ValueId) : Prop :=
  ∃ instr, f.instr? user = some instr ∧ value ∈ instr.dataOperands

namespace DataLinks

-- The values used that have no node of their own at the start.
def newcomers (start : Graph) (uses : List ValueId) : Finset ValueId :=
  uses.toFinset.filter fun value => start.nodeOf? value = none

-- The graph when nodes for `uses` are there and `links` edges were added.
structure Supplied (f : Func) (start : Graph) (uses : List ValueId) (links : Nat) (g : Graph) : Prop where
  well : g.WellFormed
  kept : ∀ id n, start.nodes.get? id = some n → ∃ m, g.nodes.get? id = some m ∧ m.unlisted = n.unlisted
  lastNode : start.lastNode ≤ g.lastNode
  outside : ∀ id m, g.nodes.get? id = some m → (∃ n, start.nodes.get? id = some n) ∨
    (start.lastNode < id ∧ m.kind = .external ∧ m.role = none ∧ start.nodeOf? m.value = none)
  values : ∀ value, (∃ id, g.nodeOf? value = some id) ↔
    (∃ id, start.nodeOf? value = some id) ∨ value ∈ uses
  size : g.size = start.size + (newcomers start uses).card
  links : g.edges.size = links
  flows : ∀ id e, g.edges.get? id = some e → e.kind = .data ∧ ∃ s t, g.nodes.get? e.source = some s ∧
    g.nodes.get? e.target = some t ∧ t.kind = .instruction ∧ Takes f s.value t.value
  labels : ∀ id m, g.nodes.get? id = some m → start.lastNode < id → m.label = f.valueName m.value

theorem newcomers_known (start : Graph) (uses : List ValueId) (value : ValueId)
    (known : (∃ id, start.nodeOf? value = some id) ∨ value ∈ uses) :
    newcomers start (uses ++ [value]) = newcomers start uses := by
  ext other
  simp only [newcomers, Finset.mem_filter, List.mem_toFinset, List.mem_append, List.mem_singleton]
  constructor
  · rintro ⟨used | rfl, absent⟩
    · exact ⟨used, absent⟩
    · rcases known with ⟨id, found⟩ | used
      · rw [absent] at found
        cases found
      · exact ⟨used, absent⟩
  · rintro ⟨used, absent⟩
    exact ⟨Or.inl used, absent⟩

theorem newcomers_new (start : Graph) (uses : List ValueId) (value : ValueId)
    (absent : start.nodeOf? value = none) (new : value ∉ uses) :
    (newcomers start (uses ++ [value])).card = (newcomers start uses).card + 1 := by
  have more : newcomers start (uses ++ [value]) = insert value (newcomers start uses) := by
    ext other
    simp only [newcomers, Finset.mem_filter, Finset.mem_insert, List.mem_toFinset, List.mem_append,
      List.mem_singleton]
    constructor
    · rintro ⟨used | here, free⟩
      · exact Or.inr ⟨used, free⟩
      · exact Or.inl here
    · rintro (rfl | ⟨used, free⟩)
      · exact ⟨Or.inr rfl, absent⟩
      · exact ⟨Or.inl used, free⟩
  rw [more, Finset.card_insert_of_notMem]
  exact fun member => new (List.mem_toFinset.mp (Finset.mem_filter.mp member).1)

theorem supplied_placed (f : Func) (instrs : List BodyInstr) (g : Graph) (placed : Graph.Placed instrs g) :
    Supplied f g [] 0 g := by
  refine ⟨placed.well, fun id n found => ⟨n, found, rfl⟩, Nat.le_refl _, fun id m found => Or.inl ⟨m, found⟩, ?_,
    rfl, ?_, ?_, fun id m found late => ?_⟩
  · intro value
    simp
  · rw [placed.noEdges]
    rfl
  · intro id e found
    rw [placed.noEdges] at found
    cases found
  · exact absurd (placed.well.indexed.nodeBound id m found) (Nat.not_le_of_gt late)

-- What flows between two nodes still does in a graph where both keep their kind and their value.
theorem flow_kept (f : Func) (g h : Graph)
    (stays : ∀ key m, g.nodes.get? key = some m →
      ∃ k, h.nodes.get? key = some k ∧ k.kind = m.kind ∧ k.value = m.value)
    (producer consumer : NodeId) (s t : Node) (source : g.nodes.get? producer = some s)
    (target : g.nodes.get? consumer = some t) (instruction : t.kind = .instruction) (takes : Takes f s.value t.value) :
    ∃ s t, h.nodes.get? producer = some s ∧ h.nodes.get? consumer = some t ∧ t.kind = .instruction ∧
      Takes f s.value t.value := by
  obtain ⟨s', first, _, sValue⟩ := stays producer s source
  obtain ⟨t', second, kind, tValue⟩ := stays consumer t target
  exact ⟨s', t', first, second, kind.trans instruction, by rwa [sValue, tValue]⟩

-- The node at `key` after one more use of the one at `id`.
def usedAt (id : NodeId) (weight : Float) (key : NodeId) (n : Node) : Node :=
  if key = id then { n with weight := n.weight + weight } else n

theorem used_same (id : NodeId) (weight : Float) (key : NodeId) (n : Node) :
    (usedAt id weight key n).identity = n.identity ∧ (usedAt id weight key n).kind = n.kind ∧
      ∀ side, (usedAt id weight key n).listing side = n.listing side := by
  unfold usedAt
  split
  · exact ⟨rfl, rfl, fun side => by cases side <;> rfl⟩
  · exact ⟨rfl, rfl, fun _ => rfl⟩

theorem get_used (g : Graph) (id : NodeId) (weight : Float) (key : NodeId) :
    (g.modifyNode id fun n => { n with weight := n.weight + weight }).nodes.get? key =
      (g.nodes.get? key).map (usedAt id weight key) := Graph.get_modify_node g id key _

theorem used_well_formed (g : Graph) (well : g.WellFormed) (id : NodeId) (weight : Float) :
    (g.modifyNode id fun n => { n with weight := n.weight + weight }).WellFormed := by
  refine Graph.well_formed_of_changes g _ (usedAt id weight) (fun e => e) well (get_used g id weight) ?_
    (fun key m => (used_same id weight key m).1) (fun key m => (used_same id weight key m).2.2) (fun _ => rfl)
    (fun _ _ => rfl) rfl rfl rfl rfl
  exact fun edge => Option.map_id'.symm

-- More weight on an external node is no change to anything else.
theorem supplied_weighed (f : Func) (start g : Graph) (uses : List ValueId) (links : Nat)
    (supplied : Supplied f start uses links g) (plain : ∀ id n, start.nodes.get? id = some n → n.kind = .instruction)
    (id : NodeId) (n : Node) (node : g.nodes.get? id = some n) (external : n.isExternal) (weight : Float) :
    Supplied f start uses links (g.modifyNode id fun n => { n with weight := n.weight + weight }) := by
  have nodes := get_used g id weight
  have same := used_same id weight
  have value : ∀ key m, (usedAt id weight key m).value = m.value := fun key m => congrArg (·.2.1) (same key m).1
  have role : ∀ key m, (usedAt id weight key m).role = m.role := fun key m => congrArg (·.2.2) (same key m).1
  refine ⟨used_well_formed g supplied.well id weight, ?_, supplied.lastNode, ?_, supplied.values, ?_, supplied.links, ?_,
    ?_⟩
  · intro key m found
    obtain ⟨held, there, unlisted⟩ := supplied.kept key m found
    refine ⟨usedAt id weight key held, by rw [nodes, there]; rfl, ?_⟩
    unfold usedAt
    split
    · rename_i here
      rw [here, node] at there
      cases there
      rw [Node.isExternal, (Node.same_of_unlisted unlisted).2.1, plain key m found] at external
      cases external
    · exact unlisted
  · intro key m found
    obtain ⟨held, there, rfl⟩ := Option.map_eq_some_iff.mp ((nodes key).symm.trans found)
    refine (supplied.outside key held there).imp_right ?_
    rw [(same key held).2.1, value, role]
    exact fun fresh => fresh
  · exact (Table.size_modify _ _ _).trans supplied.size
  · intro edge e found
    obtain ⟨kind, s, t, source, target, instruction, takes⟩ := supplied.flows edge e found
    refine ⟨kind, flow_kept f g _ ?_ e.source e.target s t source target instruction takes⟩
    exact fun key m held => ⟨usedAt id weight key m, by rw [nodes, held]; rfl, (same key m).2.1, value key m⟩
  · intro key m found late
    obtain ⟨held, there, rfl⟩ := Option.map_eq_some_iff.mp ((nodes key).symm.trans found)
    rw [value, ← supplied.labels key held there late]
    unfold usedAt
    split <;> rfl

theorem supplied_external (f : Func) (start g : Graph) (uses : List ValueId) (links : Nat)
    (supplied : Supplied f start uses links g) (operand : ValueId) (new : g.nodeOf? operand = none)
    (weight : Float) :
    Supplied f start (uses ++ [operand]) links
      (g.withFresh.insertValueNode (Node.external (g.lastNode + 1) operand (f.valueName operand) weight)) := by
  let n := Node.external (g.lastNode + 1) operand (f.valueName operand) weight
  have nodes := Graph.get_insert_value_node g n
  have fresh : g.nodes.get? n.id = none := Graph.no_fresh_node g supplied.well.indexed
  have unknown : ¬((∃ id, start.nodeOf? operand = some id) ∨ operand ∈ uses) := by
    rw [← supplied.values operand, new]
    rintro ⟨id, found⟩
    cases found
  rw [not_or] at unknown
  have absent : start.nodeOf? operand = none :=
    Option.eq_none_iff_forall_ne_some.mpr fun id found => unknown.1 ⟨id, found⟩
  have stays : ∀ key m, g.nodes.get? key = some m → (g.withFresh.insertValueNode n).nodes.get? key = some m :=
    fun key m found => by rw [nodes, if_neg (Graph.present_ne g fresh found), found]
  refine ⟨?_, ?_, Nat.le_succ_of_le supplied.lastNode, ?_, ?_, ?_, supplied.links, ?_, ?_⟩
  · refine Graph.insert_value_node_well_formed g n supplied.well rfl rfl fun side => ?_
    cases side <;> rfl
  · intro key m found
    obtain ⟨held, there, unlisted⟩ := supplied.kept key m found
    exact ⟨held, stays key held there, unlisted⟩
  · intro key m found
    rw [nodes] at found
    split at found
    · rename_i here
      cases found
      exact Or.inr ⟨here ▸ Nat.lt_succ_of_le supplied.lastNode, rfl, rfl, absent⟩
    · exact supplied.outside key m found
  · intro value
    have read : (g.withFresh.insertValueNode n).nodeOf? value =
        if value = operand then some (g.lastNode + 1) else g.nodeOf? value :=
      Table.get_insert g.byValue operand value (g.lastNode + 1)
    have before := supplied.values value
    rw [read, List.mem_append, List.mem_singleton, ← or_assoc, ← before]
    by_cases here : value = operand <;> simp [here]
  · have more : (g.withFresh.insertValueNode n).size = g.size + 1 :=
      Table.size_insert_above g.nodes _ n (Graph.node_below g supplied.well.indexed)
    rw [more, supplied.size, newcomers_new start uses operand absent unknown.2, Nat.add_assoc]
  · intro edge e found
    obtain ⟨kind, s, t, source, target, rest⟩ := supplied.flows edge e found
    exact ⟨kind, s, t, stays _ s source, stays _ t target, rest⟩
  · intro key m found late
    rw [nodes] at found
    split at found
    · cases found
      rfl
    · exact supplied.labels key m found late

theorem supplied_known (f : Func) (start g : Graph) (uses : List ValueId) (links : Nat)
    (supplied : Supplied f start uses links g) (operand : ValueId)
    (known : ∃ id, g.nodeOf? operand = some id) : Supplied f start (uses ++ [operand]) links g := by
  have before := (supplied.values operand).mp known
  refine { supplied with values := ?_, size := ?_ }
  · intro value
    rw [supplied.values, List.mem_append, List.mem_singleton, ← or_assoc]
    constructor
    · exact Or.inl
    · rintro (old | rfl)
      · exact old
      · exact before
  · rw [supplied.size, newcomers_known start uses operand before]

theorem producer_run (f : Func) (start g : Graph) (uses : List ValueId) (links : Nat)
    (supplied : Supplied f start uses links g)
    (plain : ∀ id n, start.nodes.get? id = some n → n.kind = .instruction) (weight : Float) (operand : ValueId) :
    ∃ producer next, (producerOf f weight operand).run g = .ok producer next ∧
      Supplied f start (uses ++ [operand]) links next ∧
      ∃ s, next.nodes.get? producer = some s ∧ s.value = operand := by
  cases known : g.nodeOf? operand with
  | none =>
      have next := supplied_external f start g uses links supplied operand known weight
      refine ⟨g.lastNode + 1, _, ?_, next, ?_⟩
      · simp only [producerOf, EStateM.run_bind, EStateM.run_get, known, Edit.new_node_id_run,
          EStateM.run_modify, EStateM.run_pure]
      · exact ⟨_, (Graph.get_insert_value_node g _ _).trans (if_pos rfl), rfl⟩
  | some producer =>
      obtain ⟨n, node, value, _⟩ := supplied.well.indexed.valueNodes operand producer known
      have found := Edit.get_node_run producer g n node
      have same := supplied_known f start g uses links supplied operand ⟨producer, known⟩
      cases external : n.isExternal with
      | false =>
          refine ⟨producer, g, ?_, same, n, node, value⟩
          simp only [producerOf, EStateM.run_bind, EStateM.run_get, known, found, external, Bool.false_eq_true,
            if_false, EStateM.run_pure]
      | true =>
          have next := supplied_weighed f start g _ links same plain producer n node external weight
          have weighed := Edit.change_node_run producer (fun n => { n with weight := n.weight + weight }) g ⟨n, node⟩
          refine ⟨producer, _, ?_, next, { n with weight := n.weight + weight }, ?_, value⟩
          · simp only [producerOf, EStateM.run_bind, EStateM.run_get, known, found, external, if_true, weighed,
              EStateM.run_pure]
          · rw [Graph.get_modify_node, node, Option.map_some, if_pos rfl]

theorem supplied_linked (f : Func) (start g : Graph) (uses : List ValueId) (links : Nat)
    (supplied : Supplied f start uses links g) (producer consumer : NodeId) (weight : Float) (s t : Node)
    (source : g.nodes.get? producer = some s) (target : g.nodes.get? consumer = some t)
    (instruction : t.kind = .instruction) (takes : Takes f s.value t.value) :
    Supplied f start uses (links + 1) (Edit.attach g producer consumer .data weight) := by
  have nodes := Graph.get_attach_node g producer consumer .data weight
  have stays : ∀ key m, g.nodes.get? key = some m →
      ∃ joined, (Edit.attach g producer consumer .data weight).nodes.get? key = some joined ∧
        joined.unlisted = m.unlisted := fun key m found =>
    ⟨m.joined key (g.newEdge producer consumer .data weight), by rw [nodes, found]; rfl, rfl⟩
  have feeds := flow_kept f g (Edit.attach g producer consumer .data weight) (by
    intro key m found
    obtain ⟨joined, read, same⟩ := stays key m found
    obtain ⟨_, kind, value, _⟩ := Node.same_of_unlisted same
    exact ⟨joined, read, kind, value⟩)
  refine ⟨Graph.attach_well_formed g producer consumer .data weight supplied.well ⟨s, source⟩ ⟨t, target⟩,
    ?_, supplied.lastNode, ?_, supplied.values, ?_, ?_, ?_, ?_⟩
  · intro id n found
    obtain ⟨m, there, unlisted⟩ := supplied.kept id n found
    obtain ⟨joined, read, same⟩ := stays id m there
    exact ⟨joined, read, same.trans unlisted⟩
  · intro id joined found
    rw [nodes] at found
    obtain ⟨m, there, rfl⟩ := Option.map_eq_some_iff.mp found
    exact supplied.outside id m there
  · rw [Graph.attach_size, supplied.size]
  · rw [Graph.attach_edge_size g producer consumer .data weight supplied.well, supplied.links]
  · intro id e found
    rw [Graph.get_attach_edge] at found
    split at found
    · cases found
      exact ⟨rfl, feeds producer consumer s t source target instruction takes⟩
    · obtain ⟨kind, a, b, first, second, placed, taken⟩ := supplied.flows id e found
      exact ⟨kind, feeds e.source e.target a b first second placed taken⟩
  · intro id joined found late
    rw [nodes] at found
    obtain ⟨m, there, rfl⟩ := Option.map_eq_some_iff.mp found
    exact supplied.labels id m there late

-- What flows into the instructions that some nodes stand for.
def wanted (f : Func) (nodes : List Node) : List ValueId :=
  nodes.flatMap fun n => (f.instr? n.value).elim [] Instr.dataOperands

theorem operand_run (f : Func) (start g : Graph) (uses : List ValueId) (links : Nat)
    (supplied : Supplied f start uses links g)
    (plain : ∀ id n, start.nodes.get? id = some n → n.kind = .instruction) (consumer : NodeId) (n : Node)
    (node : start.nodes.get? consumer = some n) (weight : Float) (operand : ValueId)
    (takes : Takes f operand n.value) :
    ∃ next, (linkOperand f consumer weight operand).run g = .ok () next ∧
      Supplied f start (uses ++ [operand]) (links + 1) next := by
  obtain ⟨producer, middle, ran, held, s, source, same⟩ :=
    producer_run f start g uses links supplied plain weight operand
  obtain ⟨t, target, unlisted⟩ := held.kept consumer n node
  obtain ⟨_, kind, value, _⟩ := Node.same_of_unlisted unlisted
  refine ⟨Edit.attach middle producer consumer .data weight, ?_, ?_⟩
  · rw [linkOperand, Edit.run_bind_ok _ _ g middle producer ran]
    rw [Edit.run_bind_ok _ _ middle _ _ (Edit.add_edge_run producer consumer .data weight middle
      ⟨s, source⟩ ⟨t, target⟩), EStateM.run_pure]
  · exact supplied_linked f start middle _ links held producer consumer weight s t source target
      (kind.trans (plain consumer n node)) (by rwa [same, value])

theorem consumer_run (f : Func) (start g : Graph) (uses : List ValueId) (links : Nat)
    (supplied : Supplied f start uses links g)
    (plain : ∀ id n, start.nodes.get? id = some n → n.kind = .instruction) (consumer : NodeId) (n : Node)
    (node : start.nodes.get? consumer = some n) (instr : Instr) (defined : f.instr? n.value = some instr) :
    ∃ next, (linkConsumer f consumer).run g = .ok instr.dataOperands.length next ∧
      Supplied f start (uses ++ instr.dataOperands) (links + instr.dataOperands.length) next := by
  obtain ⟨m, present, unlisted⟩ := supplied.kept consumer n node
  have value : m.value = n.value := (Node.same_of_unlisted unlisted).2.2.1
  obtain ⟨next, ran, final⟩ := Edit.run_for_each instr.dataOperands (linkOperand f consumer m.weight)
    (fun done h => Supplied f start (uses ++ done) (links + done.length) h) (by
      intro done operand rest h split held
      have takes : Takes f operand n.value := ⟨instr, defined, by simp [split]⟩
      obtain ⟨next, ran, more⟩ := operand_run f start h _ _ held plain consumer n node m.weight operand takes
      refine ⟨next, ran, ?_⟩
      simpa only [List.append_assoc, List.length_append, List.length_singleton, Nat.add_assoc] using more)
    g (by simpa using supplied)
  refine ⟨next, ?_, final⟩
  rw [linkConsumer, Edit.run_bind_ok _ _ g g m (Edit.get_node_run consumer g m present)]
  simp only [value, defined]
  rw [Edit.run_bind_ok _ _ g next () ran, EStateM.run_pure]

theorem consumers_run (f : Func) (start : Graph)
    (plain : ∀ id n, start.nodes.get? id = some n → n.kind = .instruction) (nodes : List Node)
    (present : ∀ n ∈ nodes, start.nodes.get? n.id = some n ∧ ∃ instr, f.instr? n.value = some instr)
    (g : Graph) (uses : List ValueId) (links : Nat) (supplied : Supplied f start uses links g) :
    ∃ next, (linkConsumers f (nodes.map Node.id)).run g = .ok (wanted f nodes).length next ∧
      Supplied f start (uses ++ wanted f nodes) (links + (wanted f nodes).length) next := by
  induction nodes generalizing g uses links with
  | nil => exact ⟨g, rfl, by simpa [wanted] using supplied⟩
  | cons n rest ih =>
      obtain ⟨node, instr, defined⟩ := present n List.mem_cons_self
      obtain ⟨middle, ran, held⟩ := consumer_run f start g uses links supplied plain n.id n node instr defined
      obtain ⟨next, later, final⟩ := ih (fun m member => present m (List.mem_cons_of_mem _ member)) middle _ _ held
      have split : wanted f (n :: rest) = instr.dataOperands ++ wanted f rest := by
        simp only [wanted, List.flatMap_cons, defined, Option.elim_some]
      refine ⟨next, ?_, ?_⟩
      · rw [List.map_cons, linkConsumers, Edit.run_bind_ok _ _ g middle _ ran,
          Edit.run_bind_ok _ _ middle next _ later, EStateM.run_pure, split, List.length_append]
      · rw [split, List.length_append, ← List.append_assoc, ← Nat.add_assoc]
        exact final

end DataLinks

namespace Body

-- Everything that flows into the instructions of the body, use by use.
def dataOperands (body : Body) : List ValueId := body.instrs.flatMap fun i => i.instr.dataOperands

end Body

namespace DataLinks

theorem placed_values (instrs : List BodyInstr) (g : Graph) (placed : Graph.Placed instrs g) :
    g.nodes.values.map Node.value = instrs.map BodyInstr.id := by
  rw [placed.nodes]
  apply List.ext_getElem
  · simp
  · intro position _ _
    simp [Graph.nodeOf, Node.instruction]

theorem wanted_placed (body : Body) (g : Graph) (placed : Graph.Placed body.instrs g) :
    wanted body.func g.nodes.values = body.dataOperands := by
  have byValue : wanted body.func g.nodes.values = (g.nodes.values.map Node.value).flatMap
      fun value => (body.func.instr? value).elim [] Instr.dataOperands := by
    rw [List.flatMap_map]
    rfl
  rw [byValue, placed_values body.instrs g placed, List.flatMap_map, Body.dataOperands]
  apply List.flatMap_congr
  intro i member
  rw [body.instr_defined i member, Option.elim_some]

theorem pass_supplies (body : Body) (g : Graph) (placed : Graph.Placed body.instrs g) :
    ∃ next, (pass body).run g = .ok (body.dataOperands.length != 0) next ∧
      Supplied body.func g body.dataOperands body.dataOperands.length next := by
  have made : ∀ id n, g.nodes.get? id = some n → ∃ i ∈ body.instrs, n = Graph.nodeOf id i :=
    Graph.placed_node body.instrs g placed
  have plain : ∀ id n, g.nodes.get? id = some n → n.kind = .instruction := by
    intro id n node
    obtain ⟨i, _, rfl⟩ := made id n node
    rfl
  have every : consumers g = g.nodes.values.map Node.id := by
    refine congrArg (List.map Node.id) (List.filter_eq_self.mpr fun n member => ?_)
    obtain ⟨id, node⟩ := Table.mem_values.mp member
    obtain ⟨i, _, rfl⟩ := made id n node
    rfl
  have present : ∀ n ∈ g.nodes.values,
      g.nodes.get? n.id = some n ∧ ∃ instr, body.func.instr? n.value = some instr := by
    intro n member
    obtain ⟨id, node⟩ := Table.mem_values.mp member
    obtain ⟨i, inBody, rfl⟩ := made id n node
    exact ⟨node, i.instr, body.instr_defined i inBody⟩
  obtain ⟨next, ran, final⟩ := consumers_run body.func g plain g.nodes.values present g [] 0
    (supplied_placed body.func body.instrs g placed)
  rw [wanted_placed body g placed] at ran final
  refine ⟨next, ?_, by simpa using final⟩
  simp only [pass, EStateM.run_bind, EStateM.run_get, every, ran, EStateM.run_pure]

-- The graph of a body with its data links, where there is one.
def supplied? (body : Body) : Option Graph :=
  match Graph.ofBody body with
  | .error _ => none
  | .ok start =>
      match (pass body).run start with
      | .error _ _ => none
      | .ok _ g => some g

theorem supplied_well_formed (body : Body) (g : Graph) (made : supplied? body = some g) : g.WellFormed := by
  unfold supplied? at made
  split at made
  · cases made
  · rename_i start placed
    obtain ⟨next, ran, supplied⟩ := pass_supplies body start (Graph.of_body_placed body start placed)
    rw [ran] at made
    cases made
    exact supplied.well

end DataLinks

end LoopDeps
