import LoopDeps.Graph.AddressChains
import LoopDeps.Proofs.Graph.Rewiring
set_option autoImplicit false

/- The expansion of one address computation. Its edges go over to the nodes of the chain, and nothing else
   about the graph changes. -/
namespace LoopDeps

namespace AddressChains

namespace Chain

-- The chain that the next four ids make up.
def above (last : NodeId) : Chain := ⟨last + 1, last + 2, last + 3, last + 4⟩

def roleOf (chain : Chain) (key : NodeId) : Option ChainRole :=
  if key = chain.add1 then some .add1
  else if key = chain.add2 then some .add2
  else if key = chain.multiply then some .multiply
  else if key = chain.size then some .size
  else none

theorem ne_above (last key : Nat) (old : key ≤ last) (k : Nat) : key ≠ last + (k + 1) :=
  Nat.ne_of_lt (Nat.lt_of_le_of_lt old (Nat.lt_add_of_pos_right (Nat.succ_pos k)))

theorem role_of_old (last key : NodeId) (old : key ≤ last) : (above last).roleOf key = none := by
  have low := ne_above last key old
  have notAdd1 : key ≠ (above last).add1 := low 0
  have notAdd2 : key ≠ (above last).add2 := low 1
  have notMultiply : key ≠ (above last).multiply := low 2
  have notSize : key ≠ (above last).size := low 3
  rw [roleOf, if_neg notAdd1, if_neg notAdd2, if_neg notMultiply, if_neg notSize]

theorem role_of_entry (last : NodeId) (position : Option Nat) :
    ∃ role, (above last).roleOf ((above last).entryOf position) = some role := by
  unfold entryOf
  split
  · exact ⟨.add1, by simp [roleOf]⟩
  · exact ⟨.add2, by simp [roleOf, above]⟩
  · exact ⟨.multiply, by simp [roleOf, above]⟩

theorem not_entry (last key : NodeId) (old : key ≤ last) (position : Option Nat) :
    key ≠ (above last).entryOf position := by
  rintro rfl
  obtain ⟨role, isRole⟩ := role_of_entry last position
  rw [role_of_old last _ old] at isRole
  cases isRole

end Chain

end AddressChains

namespace Graph

open AddressChains

def grown (g : Graph) (value : ValueId) (weight : Float) (role : ChainRole) : Graph :=
  g.withFresh.insertChainNode (Node.chain (g.lastNode + 1) value role weight)

def withChain (g : Graph) (value : ValueId) (weight : Float) : Graph :=
  (((g.grown value weight .add1).grown value weight .add2).grown value weight .multiply).grown value weight .size

theorem grown_well_formed (g : Graph) (value : ValueId) (weight : Float) (role : ChainRole)
    (well : g.WellFormed) : (g.grown value weight role).WellFormed := by
  refine insert_chain_node_well_formed g _ well rfl nofun fun side => ?_
  cases side <;> rfl

theorem get_grown (g : Graph) (value : ValueId) (weight : Float) (role : ChainRole) (key : NodeId) :
    (g.grown value weight role).nodes.get? key =
      if key = g.lastNode + 1 then some (Node.chain key value role weight) else g.nodes.get? key := by
  refine (get_insert_chain_node g _ key).trans ?_
  by_cases here : key = g.lastNode + 1
  · rw [if_pos here, here]
    exact if_pos rfl
  · rw [if_neg here]
    exact if_neg here

theorem grown_size (g : Graph) (value : ValueId) (weight : Float) (role : ChainRole) (well : g.WellFormed) :
    (g.grown value weight role).size = g.size + 1 :=
  Table.size_insert_above g.nodes _ _ (node_below g well.indexed)

theorem with_chain_well_formed (g : Graph) (value : ValueId) (weight : Float) (well : g.WellFormed) :
    (g.withChain value weight).WellFormed :=
  grown_well_formed _ _ _ _ (grown_well_formed _ _ _ _ (grown_well_formed _ _ _ _
    (grown_well_formed g value weight .add1 well)))

theorem get_with_chain (g : Graph) (value : ValueId) (weight : Float) (key : NodeId) :
    (g.withChain value weight).nodes.get? key =
      match (Chain.above g.lastNode).roleOf key with
      | some role => some (Node.chain key value role weight)
      | none => g.nodes.get? key := by
  unfold withChain
  rw [get_grown, get_grown, get_grown, get_grown]
  show (if key = g.lastNode + 4 then _ else if key = g.lastNode + 3 then _ else if key = g.lastNode + 2 then _
    else if key = g.lastNode + 1 then _ else _) = _
  by_cases first : key = g.lastNode + 1
  · simp [first, Chain.roleOf, Chain.above]
  by_cases second : key = g.lastNode + 2
  · simp [second, Chain.roleOf, Chain.above]
  by_cases third : key = g.lastNode + 3
  · simp [third, Chain.roleOf, Chain.above]
  by_cases fourth : key = g.lastNode + 4
  · simp [fourth, Chain.roleOf, Chain.above]
  · simp [first, second, third, fourth, Chain.roleOf, Chain.above]

theorem with_chain_old (g : Graph) (value : ValueId) (weight : Float) (well : g.WellFormed) (key : NodeId) (n : Node)
    (found : g.nodes.get? key = some n) : (g.withChain value weight).nodes.get? key = some n := by
  rw [get_with_chain, Chain.role_of_old g.lastNode key (well.indexed.nodeBound key n found), found]

theorem with_chain_part (g : Graph) (value : ValueId) (weight : Float) (key : NodeId) (role : ChainRole)
    (isRole : (Chain.above g.lastNode).roleOf key = some role) :
    (g.withChain value weight).nodes.get? key = some (Node.chain key value role weight) := by
  rw [get_with_chain, isRole]

theorem with_chain_size (g : Graph) (value : ValueId) (weight : Float) (well : g.WellFormed) :
    (g.withChain value weight).size = g.size + 4 := by
  have first := grown_well_formed g value weight .add1 well
  have second := grown_well_formed _ value weight .add2 first
  have third := grown_well_formed _ value weight .multiply second
  rw [withChain, grown_size _ value weight .size third, grown_size _ value weight .multiply second,
    grown_size _ value weight .add2 first, grown_size g value weight .add1 well]

end Graph

namespace AddressChains

theorem add_chain_run (value : ValueId) (weight : Float) (g : Graph) :
    (addChain value weight).run g = .ok (Chain.above g.lastNode) (g.withChain value weight) := by
  have node : ∀ role h, (addNode value weight role).run h = .ok (h.lastNode + 1) (h.grown value weight role) := by
    intro role h
    rw [addNode, Edit.run_bind_ok _ _ h _ _ (Edit.new_node_id_run h)]
    rfl
  simp only [addChain, EStateM.run_bind, node, EStateM.run_pure]
  rfl

end AddressChains

namespace Edge

-- The edge with its ends at `id` attached elsewhere.
def redirected (e : Edge) (id out into : NodeId) : Edge :=
  { e with
    source := if e.source = id then out else e.source
    target := if e.target = id then into else e.target }

end Edge

namespace Graph

def valueAt (g : Graph) (key : NodeId) : ValueId := (g.nodes.get? key).elim 0 Node.value

theorem value_at_node (g : Graph) (key : NodeId) (n : Node) (found : g.nodes.get? key = some n) :
    g.valueAt key = n.value := by
  rw [valueAt, found, Option.elim_some]

theorem value_at_same (g h : Graph) (key : NodeId)
    (same : (h.nodes.get? key).map Node.unlisted = (g.nodes.get? key).map Node.unlisted) :
    h.valueAt key = g.valueAt key := by
  unfold valueAt
  cases found : g.nodes.get? key with
  | none =>
      rw [found, Option.map_none, Option.map_eq_none_iff] at same
      rw [same]
  | some n =>
      obtain ⟨m, there, unlisted⟩ := node_of_same g h key n same found
      rw [there]
      exact (Node.same_of_unlisted unlisted).2.2.1

end Graph

namespace AddressChains

open LoopDeps.Graph

theorem enter_run (operands : List ValueId) (chain : Chain) (h : Graph) (id : EdgeId) (e : Edge)
    (mirrored : h.Mirrored) (found : h.edges.get? id = some e)
    (present : ∃ m, h.nodes.get? (chain.entryOf (operands.idxOf? (h.valueAt e.source))) = some m) :
    (enter operands chain id).run h =
      .ok () (h.withEnd .target id (e.endAt .target) (chain.entryOf (operands.idxOf? (h.valueAt e.source)))) := by
  obtain ⟨s, source, _⟩ := mirrored.listed .source id e found
  have source : h.nodes.get? e.source = some s := source
  rw [value_at_node h e.source s source] at present ⊢
  rw [enter, Edit.run_bind_ok _ _ h h e (Edit.get_edge_run id h e found),
    Edit.run_bind_ok _ _ h h s (Edit.get_node_run e.source h s source)]
  exact Edit.move_target_run id _ h e mirrored found present

-- The edges between the nodes of a chain, under the three ids after `last`.
def Chain.links (chain : Chain) (last : EdgeId) (weight : Float) (key : EdgeId) : Option Edge :=
  if key = last + 1 then some ⟨key, .data, weight, chain.size, chain.multiply, false⟩
  else if key = last + 2 then some ⟨key, .data, weight, chain.multiply, chain.add2, false⟩
  else if key = last + 3 then some ⟨key, .data, weight, chain.add2, chain.add1, false⟩
  else none

theorem Chain.links_old (chain : Chain) (last key : EdgeId) (weight : Float) (old : key ≤ last) :
    chain.links last weight key = none := by
  have low := Chain.ne_above last key old
  rw [Chain.links, if_neg (low 0), if_neg (low 1), if_neg (low 2)]

-- The graph with the edges of node `n` at `id` taken over by a chain.
structure Expanded (operands : List ValueId) (id : NodeId) (n : Node) (g h : Graph) : Prop where
  well : h.WellFormed
  nodes : ∀ key, (h.nodes.get? key).map Node.unlisted =
    match (Chain.above g.lastNode).roleOf key with
    | some role => some (Node.chain key n.value role n.weight)
    | none => (g.nodes.get? key).map Node.unlisted
  untouched : ∀ key, key ≤ g.lastNode → key ≠ id → h.nodes.get? key = g.nodes.get? key
  edges : ∀ key, h.edges.get? key =
    match (Chain.above g.lastNode).links g.lastEdge n.weight key with
    | some e => some e
    | none => (g.edges.get? key).map fun e => e.redirected id (Chain.above g.lastNode).add1
        ((Chain.above g.lastNode).entryOf (operands.idxOf? (g.valueAt e.source)))
  size : h.size = g.size + 4
  edgeCount : h.edges.size = g.edges.size + 3
  byValue : h.byValue = g.byValue
  lastNode : h.lastNode = g.lastNode + 4
  lastEdge : h.lastEdge = g.lastEdge + 3

-- Every edge out of the node leaves from another one.
theorem leave_all_run (g : Graph) (well : g.WellFormed) (id : NodeId) (n : Node) (node : g.nodes.get? id = some n)
    (exit : NodeId) (m : Node) (present : g.nodes.get? exit = some m) :
    ∃ h, (n.outgoing.forM fun e => Edit.moveSource e exit).run g = .ok () h ∧ h.WellFormed ∧ Rewired g h ∧
      (∀ key, key ≠ id → key ≠ exit → h.nodes.get? key = g.nodes.get? key) ∧
      (∃ k, h.nodes.get? id = some k ∧ k.incoming = n.incoming) ∧
      ∀ key, h.edges.get? key =
        (g.edges.get? key).map fun e => if e.source = id then { e with source := exit } else e := by
  obtain ⟨h, ran, wellAfter, rewired, untouched, others, edges⟩ :=
    move_all_run g well .source id n node (fun _ => exit) (fun e => Edit.moveSource e exit)
      (fun _ _ _ _ => ⟨m, present⟩) (by
        intro k key e wellHere rewired _ found _
        obtain ⟨there, stays, _⟩ := rewired_node g k rewired exit m present
        exact Edit.move_source_run key exit k e wellHere.mirrored found ⟨there, stays⟩)
  obtain ⟨k, here, _⟩ := rewired_node g h rewired id n node
  have same := others .target nofun id
  rw [here, node] at same
  exact ⟨h, ran, wellAfter, rewired, fun key off onto => untouched key off fun _ => onto,
    ⟨k, here, Option.some.inj same⟩, edges⟩

-- Every edge into the node enters the chain where the operand it carries stands.
theorem enter_all_run (operands : List ValueId) (chain : Chain) (g : Graph) (well : g.WellFormed) (id : NodeId)
    (n : Node) (node : g.nodes.get? id = some n)
    (present : ∀ position, ∃ m, g.nodes.get? (chain.entryOf position) = some m) :
    ∃ h, (n.incoming.forM (enter operands chain)).run g = .ok () h ∧ h.WellFormed ∧ Rewired g h ∧
      (∀ key, key ≠ id → (∀ position, key ≠ chain.entryOf position) → h.nodes.get? key = g.nodes.get? key) ∧
      ∀ key, h.edges.get? key = (g.edges.get? key).map fun e =>
        if e.target = id then { e with target := chain.entryOf (operands.idxOf? (g.valueAt e.source)) } else e := by
  obtain ⟨h, ran, wellAfter, rewired, untouched, _, edges⟩ :=
    move_all_run g well .target id n node (fun e => chain.entryOf (operands.idxOf? (g.valueAt e.source)))
      (enter operands chain) (fun _ _ _ _ => present _) (by
        intro k key e wellHere rewired _ found _
        rw [← value_at_same g k e.source (rewired.nodes e.source)]
        obtain ⟨m, there⟩ := present (operands.idxOf? (k.valueAt e.source))
        obtain ⟨m', stays, _⟩ := rewired_node g k rewired _ m there
        exact enter_run operands chain k key e wellHere.mirrored found ⟨m', stays⟩)
  exact ⟨h, ran, wellAfter, rewired, fun key off onto => untouched key off fun _ => onto _, edges⟩

-- The end of the chain has the value of the node, so that an edge carries the same one after it left.
theorem leaves_with_value (g : Graph) (well : g.WellFormed) (id : NodeId) (n : Node)
    (node : g.nodes.get? id = some n) (key : EdgeId) (e : Edge) (found : g.edges.get? key = some e) :
    (g.withChain n.value n.weight).valueAt (if e.source = id then (Chain.above g.lastNode).add1 else e.source) =
      g.valueAt e.source := by
  split
  · rename_i out
    have add1 := with_chain_part g n.value n.weight (Chain.above g.lastNode).add1 .add1 (by simp [Chain.roleOf])
    rw [value_at_node _ _ _ add1, out, value_at_node g id n node]
    rfl
  · obtain ⟨s, source, _⟩ := well.mirrored.listed .source key e found
    have source : g.nodes.get? e.source = some s := source
    rw [value_at_node _ _ s (with_chain_old g _ _ well _ s source), value_at_node g _ s source]

-- The edges of the node are on the chain, whose own links are still to come.
theorem rewire_run (operands : List ValueId) (g : Graph) (well : g.WellFormed) (id : NodeId) (n : Node)
    (node : g.nodes.get? id = some n) :
    ∃ middle h,
      (n.outgoing.forM fun e => Edit.moveSource e (Chain.above g.lastNode).add1).run (g.withChain n.value n.weight) =
        .ok () middle ∧
      (n.incoming.forM (enter operands (Chain.above g.lastNode))).run middle = .ok () h ∧
      h.WellFormed ∧ Rewired (g.withChain n.value n.weight) h ∧
      (∀ key, key ≤ g.lastNode → key ≠ id → h.nodes.get? key = g.nodes.get? key) ∧
      ∀ key, h.edges.get? key = (g.edges.get? key).map fun e => e.redirected id (Chain.above g.lastNode).add1
        ((Chain.above g.lastNode).entryOf (operands.idxOf? (g.valueAt e.source))) := by
  have parts := with_chain_part g n.value n.weight
  have add1 := parts (Chain.above g.lastNode).add1 .add1 (by simp [Chain.roleOf])
  obtain ⟨middle, outRan, wellMiddle, left, outNodes, ⟨m, here, incoming⟩, outEdges⟩ :=
    leave_all_run (g.withChain n.value n.weight) (with_chain_well_formed g n.value n.weight well) id n
      (with_chain_old g n.value n.weight well id n node) _ _ add1
  have entries : ∀ position, ∃ m, middle.nodes.get? ((Chain.above g.lastNode).entryOf position) = some m := by
    intro position
    obtain ⟨role, isRole⟩ := Chain.role_of_entry g.lastNode position
    obtain ⟨m, present, _⟩ := rewired_node _ middle left _ _ (parts _ role isRole)
    exact ⟨m, present⟩
  obtain ⟨h, inRan, wellAfter, entered, inNodes, inEdges⟩ :=
    enter_all_run operands (Chain.above g.lastNode) middle wellMiddle id m here entries
  refine ⟨middle, h, outRan, incoming ▸ inRan, wellAfter, rewired_trans _ middle h left entered, ?_, ?_⟩
  · intro key old other
    have apart := fun k => Chain.ne_above g.lastNode key old k
    rw [inNodes key other (Chain.not_entry g.lastNode key old), outNodes key other (apart 0), get_with_chain,
      Chain.role_of_old g.lastNode key old]
  intro key
  have edges : (g.withChain n.value n.weight).edges = g.edges := rfl
  rw [inEdges, outEdges, edges, Option.map_map]
  cases found : g.edges.get? key with
  | none => rfl
  | some e =>
      have value := leaves_with_value g well id n node key e found
      rw [← value_at_same _ middle _ (left.nodes _)] at value
      rw [Option.map_some, Option.map_some, Edge.redirected, ← value]
      by_cases out : e.source = id <;> by_cases into : e.target = id <;> simp [out, into]

-- The graph with the links of a chain, each of them between nodes that are there.
def linked (g : Graph) (chain : Chain) (weight : Float) : Graph :=
  Edit.attach (Edit.attach (Edit.attach g chain.size chain.multiply .data weight)
    chain.multiply chain.add2 .data weight) chain.add2 chain.add1 .data weight

theorem attach_present (g : Graph) (source target : NodeId) (kind : Dependence) (weight : Float) (key : NodeId)
    (present : ∃ n, g.nodes.get? key = some n) :
    ∃ n, (Edit.attach g source target kind weight).nodes.get? key = some n := by
  obtain ⟨n, found⟩ := present
  exact ⟨n.joined key (g.newEdge source target kind weight), by rw [get_attach_node, found, Option.map_some]⟩

theorem linked_run (g : Graph) (well : g.WellFormed) (chain : Chain) (weight : Float)
    (present : ∀ key ∈ chain.toList, ∃ n, g.nodes.get? key = some n) :
    (do
      let _ ← Edit.addEdge chain.size chain.multiply .data weight
      let _ ← Edit.addEdge chain.multiply chain.add2 .data weight
      let _ ← Edit.addEdge chain.add2 chain.add1 .data weight : Edit Unit).run g =
        .ok () (linked g chain weight) ∧ (linked g chain weight).WellFormed ∧
      (linked g chain weight).edges.size = g.edges.size + 3 := by
  have size := present chain.size (by simp [Chain.toList])
  have multiply := present chain.multiply (by simp [Chain.toList])
  have add2 := present chain.add2 (by simp [Chain.toList])
  have add1 := present chain.add1 (by simp [Chain.toList])
  have first := attach_well_formed g chain.size chain.multiply .data weight well size multiply
  have stays := attach_present g chain.size chain.multiply .data weight
  have second := attach_well_formed _ chain.multiply chain.add2 .data weight first (stays _ multiply) (stays _ add2)
  have later := attach_present (Edit.attach g chain.size chain.multiply .data weight) chain.multiply chain.add2
    .data weight
  have third := attach_well_formed _ chain.add2 chain.add1 .data weight second (later _ (stays _ add2))
    (later _ (stays _ add1))
  refine ⟨?_, third, ?_⟩
  · rw [Edit.run_bind_ok _ _ g _ _ (Edit.add_edge_run chain.size chain.multiply .data weight g size multiply),
      Edit.run_bind_ok _ _ _ _ _ (Edit.add_edge_run chain.multiply chain.add2 .data weight _ (stays _ multiply)
        (stays _ add2)),
      Edit.run_bind_ok _ _ _ _ _ (Edit.add_edge_run chain.add2 chain.add1 .data weight _ (later _ (stays _ add2))
        (later _ (stays _ add1)))]
    rfl
  · rw [linked, attach_edge_size _ _ _ _ _ second, attach_edge_size _ _ _ _ _ first,
      attach_edge_size _ _ _ _ _ well]

theorem get_linked (g : Graph) (chain : Chain) (weight : Float) (key : EdgeId) :
    (linked g chain weight).edges.get? key =
      match chain.links g.lastEdge weight key with
      | some e => some e
      | none => g.edges.get? key := by
  rw [linked, get_attach_edge, get_attach_edge, get_attach_edge]
  show (if key = g.lastEdge + 3 then _ else if key = g.lastEdge + 2 then _ else if key = g.lastEdge + 1 then _
    else _) = _
  by_cases first : key = g.lastEdge + 1
  · simp [first, Chain.links, newEdge]
  by_cases second : key = g.lastEdge + 2
  · simp [second, Chain.links, newEdge, Edit.attach, modifyNode]
  by_cases third : key = g.lastEdge + 3
  · simp [third, Chain.links, newEdge, Edit.attach, modifyNode]
  · simp [first, second, third, Chain.links]

theorem linked_nodes (g : Graph) (chain : Chain) (weight : Float) :
    (∀ key, ((linked g chain weight).nodes.get? key).map Node.unlisted = (g.nodes.get? key).map Node.unlisted) ∧
      (linked g chain weight).size = g.size := by
  constructor
  · intro key
    rw [linked, get_attach_node, get_attach_node, get_attach_node, Option.map_map, Option.map_map, Option.map_map]
    rfl
  · rw [linked, attach_size, attach_size, attach_size]

theorem linked_elsewhere (g : Graph) (chain : Chain) (weight : Float) (key : NodeId) (other : key ∉ chain.toList) :
    (linked g chain weight).nodes.get? key = g.nodes.get? key := by
  simp only [Chain.toList, List.mem_cons, List.not_mem_nil, or_false, not_or] at other
  obtain ⟨add1, add2, multiply, size⟩ := other
  have same : ∀ (n : Node) (h : Graph) source target, key ≠ source → key ≠ target →
      n.joined key (h.newEdge source target .data weight) = n := by
    intro n h source target out into
    simp [Node.joined, newEdge, out, into]
  rw [linked, get_attach_node, get_attach_node, get_attach_node]
  simp only [same _ _ _ _ size multiply, same _ _ _ _ multiply add2, same _ _ _ _ add2 add1, Option.map_id']

-- The expansion of an address computation succeeds, whatever its edges are.
theorem expand_run (f : Func) (g : Graph) (well : g.WellFormed) (id : NodeId) (n : Node)
    (node : g.nodes.get? id = some n) :
    ∃ h, (expand f id).run g = .ok () h ∧
      Expanded ((f.instr? n.value).elim [] Instr.operands) id n g h := by
  obtain ⟨middle, h, outRan, inRan, wellAfter, rewired, untouched, edges⟩ :=
    rewire_run ((f.instr? n.value).elim [] Instr.operands) g well id n node
  have chainNode : ∀ key role, (Chain.above g.lastNode).roleOf key = some role → ∃ m, h.nodes.get? key = some m := by
    intro key role isRole
    obtain ⟨m, found, _⟩ := rewired_node _ h rewired key _ (with_chain_part g n.value n.weight key role isRole)
    exact ⟨m, found⟩
  obtain ⟨linkRan, wellLinked, edgeCount⟩ := linked_run h wellAfter (Chain.above g.lastNode) n.weight (by
    intro key member
    simp only [Chain.toList, List.mem_cons, List.not_mem_nil, or_false] at member
    rcases member with rfl | rfl | rfl | rfl
    · exact chainNode _ .add1 (by simp [Chain.roleOf])
    · exact chainNode _ .add2 (by simp [Chain.roleOf, Chain.above])
    · exact chainNode _ .multiply (by simp [Chain.roleOf, Chain.above])
    · exact chainNode _ .size (by simp [Chain.roleOf, Chain.above]))
  obtain ⟨nodes, size⟩ := linked_nodes h (Chain.above g.lastNode) n.weight
  refine ⟨linked h (Chain.above g.lastNode) n.weight, ?_, wellLinked, ?_, ?_, ?_, ?_, ?_, ?_, ?_, ?_⟩
  · rw [expand, Edit.run_bind_ok _ _ g g n (Edit.get_node_run id g n node)]
    dsimp only
    rw [Edit.run_bind_ok _ _ g _ _ (add_chain_run n.value n.weight g),
      Edit.run_bind_ok _ _ _ middle () outRan, Edit.run_bind_ok _ _ middle h () inRan]
    exact linkRan
  · intro key
    rw [nodes, rewired.nodes, get_with_chain]
    cases (Chain.above g.lastNode).roleOf key <;> rfl
  · intro key old other
    have apart := fun k => Chain.ne_above g.lastNode key old k
    rw [linked_elsewhere, untouched key old other]
    simpa [Chain.toList, Chain.above] using ⟨apart 0, apart 1, apart 2, apart 3⟩
  · intro key
    have last : h.lastEdge = g.lastEdge := rewired.lastEdge
    rw [get_linked, last, edges]
  · rw [size, rewired.size, with_chain_size g n.value n.weight well]
  · rw [edgeCount, rewired.edgeCount]
    rfl
  · exact rewired.byValue
  · exact rewired.lastNode
  · exact congrArg (· + 3) rewired.lastEdge

end AddressChains

end LoopDeps
