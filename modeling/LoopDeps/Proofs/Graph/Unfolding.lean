import LoopDeps.Proofs.Graph.Expanding
set_option autoImplicit false

/- All address computations of a graph expanded, and then removed. An expanded node has no edge left, and no
   later expansion gives it one. -/
namespace LoopDeps.AddressChains

open LoopDeps.Graph

-- An edge between two nodes of one chain.
def ChainLink (h : Graph) (e : Edge) : Prop :=
  e.kind = .data ∧ ∃ s t out into, h.nodes.get? e.source = some s ∧ h.nodes.get? e.target = some t ∧
    s.value = t.value ∧ s.role = some out ∧ t.role = some into ∧
    (out, into) ∈ [(ChainRole.size, ChainRole.multiply), (.multiply, .add2), (.add2, .add1)]

-- An edge that kept its kind and the values at its ends.
def SameEnds (start h : Graph) (old e : Edge) : Prop :=
  e.kind = old.kind ∧ h.valueAt e.source = start.valueAt old.source ∧ h.valueAt e.target = start.valueAt old.target

-- The graph when the nodes of `done` are expanded.
structure Unfolded (start : Graph) (done : List NodeId) (h : Graph) : Prop where
  well : h.WellFormed
  lastNode : start.lastNode ≤ h.lastNode
  kept : ∀ key m, start.nodes.get? key = some m → ∃ k, h.nodes.get? key = some k ∧ k.unlisted = m.unlisted
  origin : ∀ key k, h.nodes.get? key = some k →
    (∃ m, start.nodes.get? key = some m ∧ k.unlisted = m.unlisted) ∨
      (start.lastNode < key ∧ k.kind = .instruction ∧ k.role ≠ none ∧
        ∃ id ∈ done, ∃ m, start.nodes.get? id = some m ∧ k.value = m.value)
  edges : ∀ key e, h.edges.get? key = some e →
    ChainLink h e ∨ ∃ old, start.edges.get? key = some old ∧ SameEnds start h old e
  detached : ∀ id ∈ done, ∀ key e, h.edges.get? key = some e → e.source ≠ id ∧ e.target ≠ id
  size : h.size = start.size + 4 * done.length
  edgeCount : h.edges.size = start.edges.size + 3 * done.length

theorem unfolded_refl (g : Graph) (well : g.WellFormed) : Unfolded g [] g :=
  ⟨well, Nat.le_refl _, fun _ m found => ⟨m, found, rfl⟩, fun _ k found => Or.inl ⟨k, found, rfl⟩,
   fun _ e found => Or.inr ⟨e, found, rfl, rfl, rfl⟩, fun _ member => (List.not_mem_nil member).elim, rfl, rfl⟩

-- An edge of the expanded graph runs between nodes of the chain or comes from an edge of before.
theorem expanded_edge (operands : List ValueId) (id : NodeId) (n : Node) (g h : Graph)
    (expanded : Expanded operands id n g h) (key : EdgeId) (e : Edge) (found : h.edges.get? key = some e) :
    (e.kind = .data ∧ ∃ out into, (Chain.above g.lastNode).roleOf e.source = some out ∧
        (Chain.above g.lastNode).roleOf e.target = some into ∧
        (out, into) ∈ [(ChainRole.size, ChainRole.multiply), (.multiply, .add2), (.add2, .add1)]) ∨
      ∃ old position, g.edges.get? key = some old ∧
        e = old.redirected id (Chain.above g.lastNode).add1 ((Chain.above g.lastNode).entryOf position) := by
  rw [expanded.edges] at found
  cases link : (Chain.above g.lastNode).links g.lastEdge n.weight key with
  | some made =>
      rw [link] at found
      cases found
      refine Or.inl ?_
      unfold Chain.links at link
      split at link
      · cases link
        exact ⟨rfl, .size, .multiply, by simp [Chain.roleOf, Chain.above], by simp [Chain.roleOf, Chain.above],
          by simp⟩
      split at link
      · cases link
        exact ⟨rfl, .multiply, .add2, by simp [Chain.roleOf, Chain.above], by simp [Chain.roleOf, Chain.above],
          by simp⟩
      split at link
      · cases link
        exact ⟨rfl, .add2, .add1, by simp [Chain.roleOf, Chain.above], by simp [Chain.roleOf, Chain.above],
          by simp⟩
      · cases link
  | none =>
      rw [link] at found
      obtain ⟨old, there, made⟩ := Option.map_eq_some_iff.mp found
      exact Or.inr ⟨old, _, there, made.symm⟩

theorem redirected_leaves (e : Edge) (id out into gone : NodeId) (notOut : out ≠ gone) (notInto : into ≠ gone)
    (free : gone = id ∨ (e.source ≠ gone ∧ e.target ≠ gone)) :
    (e.redirected id out into).source ≠ gone ∧ (e.redirected id out into).target ≠ gone := by
  dsimp only [Edge.redirected]
  constructor
  · split
    · exact notOut
    · rename_i other
      exact free.elim (fun same => same ▸ other) fun both => both.1
  · split
    · exact notInto
    · rename_i other
      exact free.elim (fun same => same ▸ other) fun both => both.2

theorem role_above (last key : NodeId) (role : ChainRole) (isRole : (Chain.above last).roleOf key = some role) :
    last < key := by
  refine Nat.lt_of_not_le fun old => ?_
  rw [Chain.role_of_old last key old] at isRole
  cases isRole

theorem expanded_old (operands : List ValueId) (id : NodeId) (n : Node) (g h : Graph) (well : g.WellFormed)
    (expanded : Expanded operands id n g h) (key : NodeId) (m : Node) (found : g.nodes.get? key = some m) :
    ∃ k, h.nodes.get? key = some k ∧ k.unlisted = m.unlisted := by
  have read := expanded.nodes key
  rw [Chain.role_of_old g.lastNode key (well.indexed.nodeBound key m found), found] at read
  obtain ⟨k, there, same⟩ := Option.map_eq_some_iff.mp read
  exact ⟨k, there, same⟩

theorem expanded_chain (operands : List ValueId) (id : NodeId) (n : Node) (g h : Graph)
    (expanded : Expanded operands id n g h) (key : NodeId) (role : ChainRole)
    (isRole : (Chain.above g.lastNode).roleOf key = some role) :
    ∃ k, h.nodes.get? key = some k ∧ k.unlisted = (Node.chain key n.value role n.weight).unlisted := by
  have read := expanded.nodes key
  rw [isRole] at read
  obtain ⟨k, there, same⟩ := Option.map_eq_some_iff.mp read
  exact ⟨k, there, same⟩

theorem expanded_origin (operands : List ValueId) (id : NodeId) (n : Node) (g h : Graph)
    (expanded : Expanded operands id n g h) (key : NodeId) (k : Node) (found : h.nodes.get? key = some k) :
    (∃ m, g.nodes.get? key = some m ∧ k.unlisted = m.unlisted) ∨
      ∃ role, (Chain.above g.lastNode).roleOf key = some role ∧
        k.unlisted = (Node.chain key n.value role n.weight).unlisted := by
  have read := expanded.nodes key
  rw [found] at read
  cases isRole : (Chain.above g.lastNode).roleOf key with
  | some role =>
      rw [isRole] at read
      exact Or.inr ⟨role, rfl, Option.some.inj read⟩
  | none =>
      rw [isRole] at read
      obtain ⟨m, there, same⟩ := Option.map_eq_some_iff.mp read.symm
      exact Or.inl ⟨m, there, same.symm⟩

-- A node without a role is at no end of a chain link.
theorem chain_link_expanded (operands : List ValueId) (id : NodeId) (n : Node) (g h : Graph)
    (well : g.WellFormed) (expanded : Expanded operands id n g h) (node : g.nodes.get? id = some n)
    (plain : n.role = none) (e : Edge) (out into : NodeId) (link : ChainLink g e) :
    ChainLink h (e.redirected id out into) := by
  obtain ⟨kind, s, t, first, second, source, target, sameValue, sRole, tRole, pair⟩ := link
  have apart : ∀ place k role, g.nodes.get? place = some k → k.role = some role → place ≠ id := by
    intro place k role found isRole same
    rw [same, node] at found
    cases found
    rw [plain] at isRole
    cases isRole
  have same : e.redirected id out into = e := by
    simp only [Edge.redirected, if_neg (apart e.source s first source sRole),
      if_neg (apart e.target t second target tRole)]
  obtain ⟨s', sFound, sSame⟩ := expanded_old operands id n g h well expanded e.source s source
  obtain ⟨t', tFound, tSame⟩ := expanded_old operands id n g h well expanded e.target t target
  obtain ⟨_, _, sValue, sameRole⟩ := Node.same_of_unlisted sSame
  obtain ⟨_, _, tValue, sameRole'⟩ := Node.same_of_unlisted tSame
  rw [same]
  exact ⟨kind, s', t', first, second, sFound, tFound, sValue.trans (sameValue.trans tValue.symm),
    sameRole.trans sRole, sameRole'.trans tRole, pair⟩

theorem same_ends_expanded (operands : List ValueId) (id : NodeId) (n : Node) (g h : Graph)
    (well : g.WellFormed) (expanded : Expanded operands id n g h) (node : g.nodes.get? id = some n)
    (key : EdgeId) (e : Edge) (found : g.edges.get? key = some e) (position : Option Nat) :
    SameEnds g h e
      (e.redirected id (Chain.above g.lastNode).add1 ((Chain.above g.lastNode).entryOf position)) := by
  have moved : ∀ place role, (Chain.above g.lastNode).roleOf place = some role → h.valueAt place = n.value := by
    intro place role isRole
    obtain ⟨k, there, same⟩ := expanded_chain operands id n g h expanded place role isRole
    rw [value_at_node h place k there]
    exact (Node.same_of_unlisted same).2.2.1
  have here : g.valueAt id = n.value := value_at_node g id n node
  have stays : ∀ place, (∃ m, g.nodes.get? place = some m) → h.valueAt place = g.valueAt place := by
    rintro place ⟨m, held⟩
    obtain ⟨k, there, same⟩ := expanded_old operands id n g h well expanded place m held
    rw [value_at_node h place k there, value_at_node g place m held]
    exact (Node.same_of_unlisted same).2.2.1
  obtain ⟨s, source, _⟩ := well.mirrored.listed .source key e found
  obtain ⟨t, target, _⟩ := well.mirrored.listed .target key e found
  obtain ⟨role, isRole⟩ := Chain.role_of_entry g.lastNode position
  refine ⟨rfl, ?_, ?_⟩
  · dsimp only [Edge.redirected]
    split
    · rename_i same
      rw [moved _ .add1 (by simp [Chain.roleOf]), same, here]
    · exact stays e.source ⟨s, source⟩
  · dsimp only [Edge.redirected]
    split
    · rename_i same
      rw [moved _ role isRole, same, here]
    · exact stays e.target ⟨t, target⟩

theorem unfolded_edges (start g h : Graph) (done : List NodeId) (unfolded : Unfolded start done g)
    (operands : List ValueId) (id : NodeId) (n : Node) (node : g.nodes.get? id = some n) (plain : n.role = none)
    (expanded : Expanded operands id n g h) (key : EdgeId) (e : Edge) (found : h.edges.get? key = some e) :
    ChainLink h e ∨ ∃ old, start.edges.get? key = some old ∧ SameEnds start h old e := by
  rcases expanded_edge operands id n g h expanded key e found with
    ⟨kind, out, into, source, target, pair⟩ | ⟨before, position, there, rfl⟩
  · obtain ⟨s, sFound, sSame⟩ := expanded_chain operands id n g h expanded e.source out source
    obtain ⟨t, tFound, tSame⟩ := expanded_chain operands id n g h expanded e.target into target
    obtain ⟨_, _, sValue, sRole⟩ := Node.same_of_unlisted sSame
    obtain ⟨_, _, tValue, tRole⟩ := Node.same_of_unlisted tSame
    exact Or.inl ⟨kind, s, t, out, into, sFound, tFound, sValue.trans tValue.symm, sRole, tRole, pair⟩
  · rcases unfolded.edges key before there with link | ⟨old, first, kind, source, target⟩
    · exact Or.inl (chain_link_expanded operands id n g h unfolded.well expanded node plain before _ _ link)
    · obtain ⟨kindNow, sourceNow, targetNow⟩ :=
        same_ends_expanded operands id n g h unfolded.well expanded node key before there position
      exact Or.inr ⟨old, first, kindNow.trans kind, sourceNow.trans source, targetNow.trans target⟩

theorem unfolded_origin (start g h : Graph) (done : List NodeId) (unfolded : Unfolded start done g)
    (operands : List ValueId) (id : NodeId) (n : Node) (node : g.nodes.get? id = some n)
    (expanded : Expanded operands id n g h) (staged : ∃ m, start.nodes.get? id = some m) (key : NodeId) (k : Node)
    (found : h.nodes.get? key = some k) :
    (∃ m, start.nodes.get? key = some m ∧ k.unlisted = m.unlisted) ∨
      (start.lastNode < key ∧ k.kind = .instruction ∧ k.role ≠ none ∧
        ∃ old ∈ done ++ [id], ∃ m, start.nodes.get? old = some m ∧ k.value = m.value) := by
  rcases expanded_origin operands id n g h expanded key k found with ⟨m, there, same⟩ | ⟨role, isRole, same⟩
  · rcases unfolded.origin key m there with
      ⟨old, first, sameOld⟩ | ⟨young, kind, isPart, from_, member, old, first, value⟩
    · exact Or.inl ⟨old, first, same.trans sameOld⟩
    · obtain ⟨_, sameKind, sameValue, sameRole⟩ := Node.same_of_unlisted same
      exact Or.inr ⟨young, sameKind.trans kind, sameRole ▸ isPart, from_, List.mem_append_left _ member, old, first,
        sameValue.trans value⟩
  · obtain ⟨_, kind, value, isPart⟩ := Node.same_of_unlisted same
    obtain ⟨m, staged⟩ := staged
    obtain ⟨n', there, sameNode⟩ := unfolded.kept id m staged
    cases Option.some.inj (node.symm.trans there)
    have young := Nat.lt_of_le_of_lt unfolded.lastNode (role_above g.lastNode key role isRole)
    have part : k.role ≠ none := by
      rw [isPart]
      exact nofun
    exact Or.inr ⟨young, kind, part, id, by simp, m, staged, value.trans (Node.same_of_unlisted sameNode).2.2.1⟩

-- The node just expanded loses its edges, and the nodes of before get none.
theorem unfolded_detached (start g h : Graph) (done : List NodeId) (unfolded : Unfolded start done g)
    (operands : List ValueId) (id : NodeId) (n : Node) (expanded : Expanded operands id n g h) (gone : NodeId)
    (member : gone ∈ done ++ [id]) (staged : ∃ m, start.nodes.get? gone = some m) (key : EdgeId) (e : Edge)
    (found : h.edges.get? key = some e) : e.source ≠ gone ∧ e.target ≠ gone := by
  obtain ⟨m, staged⟩ := staged
  obtain ⟨k, there, _⟩ := unfolded.kept gone m staged
  have old : gone ≤ g.lastNode := unfolded.well.indexed.nodeBound gone k there
  have apart : ∀ place role, (Chain.above g.lastNode).roleOf place = some role → place ≠ gone :=
    fun place role isRole => Nat.ne_of_gt (Nat.lt_of_le_of_lt old (role_above g.lastNode place role isRole))
  rcases expanded_edge operands id n g h expanded key e found with
    ⟨_, out, into, source, target, _⟩ | ⟨before, position, held, made⟩
  · exact ⟨apart _ out source, apart _ into target⟩
  · -- The new ends are chain nodes, and younger than all that was there at the start.
    obtain ⟨role, isRole⟩ := Chain.role_of_entry g.lastNode position
    rw [made]
    refine redirected_leaves before id _ _ gone (apart _ .add1 (by simp [Chain.roleOf])) (apart _ role isRole) ?_
    rcases List.mem_append.mp member with earlier | here
    · exact Or.inr (unfolded.detached gone earlier key before held)
    · exact Or.inl (List.mem_singleton.mp here)

theorem unfolded_expanded (start g h : Graph) (done : List NodeId) (unfolded : Unfolded start done g)
    (operands : List ValueId) (id : NodeId) (n : Node) (node : g.nodes.get? id = some n) (plain : n.role = none)
    (expanded : Expanded operands id n g h)
    (inside : ∀ old ∈ done ++ [id], ∃ m, start.nodes.get? old = some m) : Unfolded start (done ++ [id]) h := by
  refine ⟨expanded.well, ?_, ?_,
    unfolded_origin start g h done unfolded operands id n node expanded (inside id (by simp)),
    unfolded_edges start g h done unfolded operands id n node plain expanded, ?_, ?_, ?_⟩
  · rw [expanded.lastNode]
    exact Nat.le_trans unfolded.lastNode (Nat.le_add_right _ 4)
  · intro key m found
    obtain ⟨k, there, same⟩ := unfolded.kept key m found
    obtain ⟨k', here, again⟩ := expanded_old operands id n g h unfolded.well expanded key k there
    exact ⟨k', here, again.trans same⟩
  · intro gone member key e found
    exact unfolded_detached start g h done unfolded operands id n expanded gone member (inside gone member) key e found
  · rw [expanded.size, unfolded.size, List.length_append, List.length_singleton]
    omega
  · rw [expanded.edgeCount, unfolded.edgeCount, List.length_append, List.length_singleton]
    omega

-- `holds` is anything more that each expansion keeps.
theorem expand_each_run (f : Func) (start : Graph) (well : start.WellFormed) (ids : List NodeId)
    (inside : ∀ id ∈ ids, ∃ m, start.nodes.get? id = some m ∧ m.role = none) (holds : List NodeId → Graph → Prop)
    (first : holds [] start)
    (step : ∀ done id rest g h n, ids = done ++ id :: rest →
      (∀ old ∈ done ++ [id], ∃ m, start.nodes.get? old = some m) → Unfolded start done g →
      g.nodes.get? id = some n → Expanded ((f.instr? n.value).elim [] Instr.operands) id n g h → holds done g →
      holds (done ++ [id]) h) :
    ∃ h, (ids.forM (expand f)).run start = .ok () h ∧ Unfolded start ids h ∧ holds ids h := by
  refine Edit.run_for_each ids (expand f) (fun done g => Unfolded start done g ∧ holds done g) ?_ start
    ⟨unfolded_refl start well, first⟩
  rintro done id rest g split ⟨unfolded, held⟩
  have present : ∀ old ∈ done ++ [id], ∃ m, start.nodes.get? old = some m := by
    intro old member
    have listed : old ∈ ids := by
      rw [split, ← List.singleton_append, ← List.append_assoc]
      exact List.mem_append_left rest member
    obtain ⟨m, found, _⟩ := inside old listed
    exact ⟨m, found⟩
  obtain ⟨m, found, role⟩ := inside id (by simp [split])
  obtain ⟨n, node, same⟩ := unfolded.kept id m found
  obtain ⟨h, ran, expanded⟩ := expand_run f g unfolded.well id n node
  have plain : n.role = none := (Node.same_of_unlisted same).2.2.2.trans role
  exact ⟨h, ran, unfolded_expanded start g h done unfolded _ id n node plain expanded present,
    step done id rest g h n split present unfolded node expanded held⟩

theorem ids_eq_keys (g : Graph) (indexed : g.Indexed) : g.nodes.values.map Node.id = g.nodes.keys := by
  simp only [Table.values, Table.keys, List.map_map]
  apply List.map_congr_left
  intro entry member
  exact indexed.nodeKeys entry.1 entry.2 (Table.get_eq_some.mpr member)

theorem staged_nodup (f : Func) (g : Graph) (indexed : g.Indexed) : (staged f g).Nodup := by
  have sub : (staged f g).Sublist (g.nodes.values.map Node.id) := List.filter_sublist.map _
  rw [ids_eq_keys g indexed] at sub
  exact sub.nodup g.nodes.keys_nodup

theorem mem_staged (f : Func) (g : Graph) (indexed : g.Indexed) (id : NodeId) :
    id ∈ staged f g ↔ ∃ n, g.nodes.get? id = some n ∧ isAddress f n = true := by
  rw [staged, List.mem_map]
  constructor
  · rintro ⟨n, member, rfl⟩
    obtain ⟨held, address⟩ := List.mem_filter.mp member
    obtain ⟨key, found⟩ := Table.mem_values.mp held
    rw [indexed.nodeKeys key n found]
    exact ⟨n, found, address⟩
  · rintro ⟨n, found, address⟩
    exact ⟨n, List.mem_filter.mpr ⟨Table.mem_values.mpr ⟨id, found⟩, address⟩, indexed.nodeKeys id n found⟩

theorem address_plain (f : Func) (n : Node) (address : isAddress f n = true) :
    n.kind = .instruction ∧ n.role = none ∧ ∃ instr, f.instr? n.value = some instr ∧ instr.kind = .address := by
  simp only [isAddress, Node.isPlain, Bool.and_eq_true, beq_iff_eq, Option.isNone_iff_eq_none, Option.any_eq_true]
    at address
  obtain ⟨⟨kind, role⟩, instr, defined, isAddress⟩ := address
  exact ⟨kind, role, instr, defined, isAddress⟩

theorem loose_unfolded (f : Func) (start g : Graph) (well : start.WellFormed)
    (unfolded : Unfolded start (staged f start) g) (id : NodeId) (member : id ∈ staged f start) : g.Loose id := by
  intro n node
  obtain ⟨m, found, address⟩ := (mem_staged f start well.indexed id).mp member
  obtain ⟨k, there, same⟩ := unfolded.kept id m found
  cases Option.some.inj (node.symm.trans there)
  refine ⟨(Node.same_of_unlisted same).2.2.2.trans (address_plain f m address).2.1, fun side => ?_⟩
  refine List.eq_nil_iff_forall_not_mem.mpr fun edge listed => ?_
  obtain ⟨e, held, here⟩ := unfolded.well.mirrored.recorded side id n edge node listed
  have apart := unfolded.detached id member edge e held
  cases side with
  | source => exact apart.1 here
  | target => exact apart.2 here

def withoutStaged (f : Func) (g middle : Graph) : Graph := (staged f g).foldl removeNode middle

theorem staged_inside (f : Func) (g : Graph) (indexed : g.Indexed) (id : NodeId) (member : id ∈ staged f g) :
    ∃ n, g.nodes.get? id = some n ∧ n.role = none := by
  obtain ⟨n, found, address⟩ := (mem_staged f g indexed id).mp member
  exact ⟨n, found, (address_plain f n address).2.1⟩

theorem pass_run (body : Body) (g middle : Graph) (well : g.WellFormed)
    (ran : ((staged body.func g).forM (expand body.func)).run g = .ok () middle)
    (unfolded : Unfolded g (staged body.func g) middle) :
    (pass body).run g = .ok (!(staged body.func g).isEmpty) (withoutStaged body.func g middle) := by
  have removed := remove_nodes_eq_fold (staged body.func g) middle unfolded.well
    (loose_unfolded body.func g middle well unfolded)
  simp only [pass, EStateM.run_bind, EStateM.run_get, ran, EStateM.run_modify, EStateM.run_pure, removed,
    withoutStaged]

-- The pass succeeds on every graph. Each address computation goes for four nodes and three links.
theorem pass_unfolds (body : Body) (g : Graph) (well : g.WellFormed) :
    ∃ middle, (pass body).run g =
        .ok (!(staged body.func g).isEmpty) (withoutStaged body.func g middle) ∧
      Unfolded g (staged body.func g) middle := by
  obtain ⟨middle, ran, unfolded, _⟩ := expand_each_run body.func g well (staged body.func g)
    (staged_inside body.func g well.indexed) (fun _ _ => True) trivial fun _ _ _ _ _ _ _ _ _ _ _ _ => trivial
  exact ⟨middle, pass_run body g middle well ran unfolded, unfolded⟩

theorem unfolded_removed (f : Func) (g middle : Graph) (well : g.WellFormed)
    (unfolded : Unfolded g (staged f g) middle) :
    (withoutStaged f g middle).WellFormed ∧
      (withoutStaged f g middle).size = g.size + 3 * (staged f g).length ∧
      (withoutStaged f g middle).edges.size = g.edges.size + 3 * (staged f g).length := by
  have loose := loose_unfolded f g middle well unfolded
  refine ⟨fold_remove_well_formed _ middle unfolded.well loose, ?_, ?_⟩
  · have removed := fold_remove_size (staged f g) middle (staged_nodup f g well.indexed) (by
      intro id member
      obtain ⟨m, found, _⟩ := (mem_staged f g well.indexed id).mp member
      obtain ⟨k, there, _⟩ := unfolded.kept id m found
      exact ⟨k, there⟩)
    have grown := unfolded.size
    rw [withoutStaged]
    omega
  · rw [withoutStaged, (fold_remove_frame _ middle).1, unfolded.edgeCount]

end LoopDeps.AddressChains
