import LoopDeps.Proofs.Graph.CycleBreaking
import LoopDeps.Proofs.Graph.Supplying
import LoopDeps.Proofs.Graph.Unfolding
set_option autoImplicit false

/- Dependences go on through the chain that stands in for an address computation. Whatever entered the node enters the
   chain and runs down to its end, whatever left the node leaves from there, and nothing else gets through. -/
namespace LoopDeps.AddressChains

open LoopDeps.Graph

namespace Chain

-- Where an edge of the node `id` starts after its expansion.
def exitOf (chain : Chain) (id key : NodeId) : NodeId := if key = id then chain.add1 else key

-- The node of before that a node belongs to.
def ownerOf (chain : Chain) (id key : NodeId) : NodeId := if chain.roleOf key = none then key else id

-- How many links are left down to the end of the chain.
def linksLeft (chain : Chain) (key : NodeId) : Nat :=
  match chain.roleOf key with
  | some .add2 => 1
  | some .multiply => 2
  | some .size => 3
  | _ => 0

theorem owner_of_old (last id key : NodeId) (old : key ≤ last) : (above last).ownerOf id key = key := by
  rw [ownerOf, role_of_old last key old, if_pos rfl]

theorem owner_of_part (last id key : NodeId) (role : ChainRole) (isRole : (above last).roleOf key = some role) :
    (above last).ownerOf id key = id := by
  rw [ownerOf, isRole, if_neg nofun]

theorem role_of_add1 (last : NodeId) : (above last).roleOf (above last).add1 = some .add1 := by simp [roleOf]

theorem owner_of_exit (last id key : NodeId) (old : key ≤ last) :
    (above last).ownerOf id ((above last).exitOf id key) = key := by
  unfold exitOf
  split
  · rename_i same
    rw [owner_of_part last id _ .add1 (role_of_add1 last), same]
  · exact owner_of_old last id key old

theorem links_left_of_exit (last id key : NodeId) (old : key ≤ last) :
    (above last).linksLeft ((above last).exitOf id key) = 0 := by
  unfold exitOf
  split
  · rw [linksLeft, role_of_add1]
  · rw [linksLeft, role_of_old last key old]

end Chain

section

variable (operands : List ValueId) (id : NodeId) (n : Node) (g h : Graph) (expanded : Expanded operands id n g h)

include expanded

theorem linked_of_link (key : EdgeId) (e : Edge)
    (made : (Chain.above g.lastNode).links g.lastEdge n.weight key = some e) : h.Linked e.source e.target :=
  ⟨key, e, by rw [expanded.edges, made], rfl, rfl⟩

theorem chain_runs_down :
    Relation.ReflTransGen h.Linked (Chain.above g.lastNode).multiply (Chain.above g.lastNode).add1 ∧
      Relation.ReflTransGen h.Linked (Chain.above g.lastNode).add2 (Chain.above g.lastNode).add1 := by
  have second := linked_of_link operands id n g h expanded (g.lastEdge + 2)
    ⟨g.lastEdge + 2, .data, n.weight, (Chain.above g.lastNode).multiply, (Chain.above g.lastNode).add2, false⟩
    (by simp [Chain.links])
  have third := linked_of_link operands id n g h expanded (g.lastEdge + 3)
    ⟨g.lastEdge + 3, .data, n.weight, (Chain.above g.lastNode).add2, (Chain.above g.lastNode).add1, false⟩
    (by simp [Chain.links])
  exact ⟨.head second (.single third), .single third⟩

theorem entry_runs_down (position : Option Nat) :
    Relation.ReflTransGen h.Linked ((Chain.above g.lastNode).entryOf position) (Chain.above g.lastNode).add1 := by
  obtain ⟨fromMultiply, fromAdd2⟩ := chain_runs_down operands id n g h expanded
  unfold Chain.entryOf
  split
  · exact .refl
  · exact fromAdd2
  · exact fromMultiply

-- An edge into the node goes in at some place of the chain, and from there down to its end.
theorem linked_relayed (well : g.WellFormed) (u v : NodeId) (linked : g.Linked u v) :
    Relation.TransGen h.Linked ((Chain.above g.lastNode).exitOf id u) ((Chain.above g.lastNode).exitOf id v) := by
  obtain ⟨key, e, found, rfl, rfl⟩ := linked
  have here := expanded.edges key
  rw [Chain.links_old _ g.lastEdge key n.weight (well.edgeBound key e found), found, Option.map_some] at here
  have step : h.Linked ((Chain.above g.lastNode).exitOf id e.source) (e.redirected id (Chain.above g.lastNode).add1
      ((Chain.above g.lastNode).entryOf (operands.idxOf? (g.valueAt e.source)))).target := ⟨key, _, here, rfl, rfl⟩
  refine Relation.TransGen.trans_left (.single step) ?_
  by_cases into : e.target = id
  · simp only [Edge.redirected, Chain.exitOf, if_pos into]
    exact entry_runs_down operands id n g h expanded _
  · simp only [Edge.redirected, Chain.exitOf, if_neg into]
    exact .refl

-- An edge of after is a link of the chain, one closer to its end, or an edge of before.
theorem linked_from (well : g.WellFormed) (x y : NodeId) (linked : h.Linked x y) :
    g.Linked ((Chain.above g.lastNode).ownerOf id x) ((Chain.above g.lastNode).ownerOf id y) ∨
      (Chain.above g.lastNode).ownerOf id x = (Chain.above g.lastNode).ownerOf id y ∧
        (Chain.above g.lastNode).linksLeft y < (Chain.above g.lastNode).linksLeft x := by
  obtain ⟨key, e, found, rfl, rfl⟩ := linked
  rcases expanded_edge operands id n g h expanded key e found with
    ⟨_, out, into, source, target, pair⟩ | ⟨old, position, there, rfl⟩
  · refine Or.inr ⟨?_, ?_⟩
    · rw [Chain.owner_of_part g.lastNode id _ out source, Chain.owner_of_part g.lastNode id _ into target]
    · simp only [List.mem_cons, Prod.mk.injEq, List.not_mem_nil, or_false] at pair
      rw [Chain.linksLeft, Chain.linksLeft, source, target]
      rcases pair with ⟨rfl, rfl⟩ | ⟨rfl, rfl⟩ | ⟨rfl, rfl⟩ <;> decide
  · have bound : ∀ side, old.endAt side ≤ g.lastNode := by
      intro side
      obtain ⟨m, node, _⟩ := well.mirrored.listed side key old there
      exact well.indexed.nodeBound _ m node
    obtain ⟨role, isRole⟩ := Chain.role_of_entry g.lastNode position
    refine Or.inl ⟨key, old, there, ?_, ?_⟩
    · exact (Chain.owner_of_exit g.lastNode id old.source (bound .source)).symm
    · dsimp only [Edge.redirected]
      split
      · rename_i into
        rw [Chain.owner_of_part g.lastNode id _ role isRole, into]
      · exact (Chain.owner_of_old g.lastNode id old.target (bound .target)).symm

-- A way of after comes from a way of before, or runs down the chain only.
theorem way_from (well : g.WellFormed) (x y : NodeId) (way : Relation.TransGen h.Linked x y) :
    Relation.TransGen g.Linked ((Chain.above g.lastNode).ownerOf id x) ((Chain.above g.lastNode).ownerOf id y) ∨
      (Chain.above g.lastNode).ownerOf id x = (Chain.above g.lastNode).ownerOf id y ∧
        (Chain.above g.lastNode).linksLeft y < (Chain.above g.lastNode).linksLeft x := by
  induction way with
  | single step => exact (linked_from operands id n g h expanded well x _ step).imp_left .single
  | tail _ step ih =>
      rcases ih with before | ⟨same, less⟩
      · rcases linked_from operands id n g h expanded well _ _ step with linked | ⟨same, _⟩
        · exact Or.inl (before.tail linked)
        · exact Or.inl (same ▸ before)
      · rcases linked_from operands id n g h expanded well _ _ step with linked | ⟨again, further⟩
        · exact Or.inl (same ▸ .single linked)
        · exact Or.inr ⟨same.trans again, Nat.lt_trans further less⟩

theorem way_iff_relayed (well : g.WellFormed) (u v : NodeId) (first : u ≤ g.lastNode) (second : v ≤ g.lastNode) :
    Relation.TransGen g.Linked u v ↔
      Relation.TransGen h.Linked ((Chain.above g.lastNode).exitOf id u) ((Chain.above g.lastNode).exitOf id v) := by
  constructor
  · exact Relation.TransGen.lift' _ (linked_relayed operands id n g h expanded well) u v
  · intro way
    rcases way_from operands id n g h expanded well _ _ way with before | ⟨_, less⟩
    · rwa [Chain.owner_of_exit g.lastNode id u first, Chain.owner_of_exit g.lastNode id v second] at before
    · rw [Chain.links_left_of_exit g.lastNode id u first] at less
      exact absurd less (Nat.not_lt_zero _)

theorem cyclic_iff_relayed (well : g.WellFormed) :
    (∃ u, Relation.TransGen g.Linked u u) ↔ ∃ x, Relation.TransGen h.Linked x x := by
  constructor
  · rintro ⟨u, cycle⟩
    exact ⟨_, Relation.TransGen.lift' _ (linked_relayed operands id n g h expanded well) u u cycle⟩
  · rintro ⟨x, cycle⟩
    rcases way_from operands id n g h expanded well x x cycle with before | ⟨_, less⟩
    · exact ⟨_, before⟩
    · exact absurd less (Nat.lt_irrefl _)

end

-- Where the edges of a node start once the nodes of `done` are expanded one after the other. Each of them takes four
-- ids, and the end of its chain is the first.
def standIn (g : Graph) (done : List NodeId) (u : NodeId) : NodeId :=
  if u ∈ done then (Chain.above (g.lastNode + 4 * done.idxOf u)).add1 else u

theorem stand_in_bound (g : Graph) (done : List NodeId) (u : NodeId) (bound : u ≤ g.lastNode) :
    standIn g done u ≤ g.lastNode + 4 * done.length := by
  unfold standIn
  split
  · rename_i member
    have fits : ∀ last position size : Nat, position < size → last + 4 * position + 1 ≤ last + 4 * size := by omega
    exact fits g.lastNode _ _ (List.idxOf_lt_length_of_mem member)
  · exact Nat.le_trans bound (Nat.le_add_right _ _)

theorem stand_in_young (g : Graph) (done : List NodeId) (u : NodeId) (member : u ∈ done) :
    g.lastNode < standIn g done u := by
  rw [standIn, if_pos member]
  exact Nat.lt_succ_of_le (Nat.le_add_right _ _)

theorem stand_in_next (g : Graph) (done : List NodeId) (id u : NodeId) (new : id ∉ done) (inside : id ≤ g.lastNode) :
    standIn g (done ++ [id]) u =
      (Chain.above (g.lastNode + 4 * done.length)).exitOf id (standIn g done u) := by
  by_cases member : u ∈ done
  · have other : standIn g done u ≠ id := Nat.ne_of_gt (Nat.lt_of_le_of_lt inside (stand_in_young g done u member))
    rw [Chain.exitOf, if_neg other, standIn, if_pos (List.mem_append_left _ member), List.idxOf_append_of_mem member,
      standIn, if_pos member]
  · by_cases same : u = id
    · rw [same, standIn, if_pos (by simp), List.idxOf_append_of_notMem new, standIn, if_neg new, Chain.exitOf, if_pos rfl]
      simp
    · rw [standIn, if_neg (by simp [member, same]), standIn, if_neg member, Chain.exitOf, if_neg same]

-- The ways of a graph when the nodes of `done` are expanded.
structure Relayed (start : Graph) (done : List NodeId) (h : Graph) : Prop where
  lastNode : h.lastNode = start.lastNode + 4 * done.length
  ways : ∀ u v, u ≤ start.lastNode → v ≤ start.lastNode →
    (Relation.TransGen start.Linked u v ↔
      Relation.TransGen h.Linked (standIn start done u) (standIn start done v))
  cyclic : (∃ u, Relation.TransGen start.Linked u u) ↔ ∃ u, Relation.TransGen h.Linked u u
  ends : ∀ id ∈ done, ∃ k, h.nodes.get? (standIn start done id) = some k ∧ k.role = some .add1 ∧
    k.value = start.valueAt id

theorem relayed_refl (g : Graph) : Relayed g [] g :=
  ⟨rfl, fun _ _ _ _ => Iff.rfl, Iff.rfl, fun _ member => (List.not_mem_nil member).elim⟩

theorem relayed_expanded (start g h : Graph) (well : start.WellFormed) (done : List NodeId)
    (unfolded : Unfolded start done g) (relayed : Relayed start done g) (operands : List ValueId) (id : NodeId)
    (n : Node) (node : g.nodes.get? id = some n) (new : id ∉ done)
    (inside : ∀ old ∈ done ++ [id], ∃ m, start.nodes.get? old = some m) (expanded : Expanded operands id n g h) :
    Relayed start (done ++ [id]) h := by
  have bound : ∀ old ∈ done ++ [id], old ≤ start.lastNode := by
    intro old member
    obtain ⟨m, found⟩ := inside old member
    exact well.indexed.nodeBound old m found
  have next := fun u => stand_in_next start done id u new (bound id (by simp))
  rw [← relayed.lastNode] at next
  refine ⟨?_, ?_, ?_, ?_⟩
  · rw [expanded.lastNode, relayed.lastNode, List.length_append, List.length_singleton, Nat.mul_add, Nat.add_assoc]
  · intro u v first second
    have within := fun w below => relayed.lastNode ▸ stand_in_bound start done w below
    rw [relayed.ways u v first second, next u, next v]
    exact way_iff_relayed operands id n g h expanded unfolded.well _ _ (within u first) (within v second)
  · exact relayed.cyclic.trans (cyclic_iff_relayed operands id n g h expanded unfolded.well)
  · intro old member
    rw [next old]
    rcases List.mem_append.mp member with earlier | last
    · obtain ⟨k, found, role, value⟩ := relayed.ends old earlier
      obtain ⟨k', there, same⟩ := expanded_old operands id n g h unfolded.well expanded _ k found
      have other : standIn start done old ≠ id :=
        Nat.ne_of_gt (Nat.lt_of_le_of_lt (bound id (by simp)) (stand_in_young start done old earlier))
      rw [Chain.exitOf, if_neg other]
      obtain ⟨_, _, sameValue, sameRole⟩ := Node.same_of_unlisted same
      exact ⟨k', there, sameRole.trans role, sameValue.trans value⟩
    · cases List.mem_singleton.mp last
      obtain ⟨k, there, same⟩ := expanded_chain operands id n g h expanded _ .add1 (Chain.role_of_add1 g.lastNode)
      obtain ⟨_, _, sameValue, sameRole⟩ := Node.same_of_unlisted same
      have value : n.value = start.valueAt id := by
        obtain ⟨m, found⟩ := inside id (by simp)
        obtain ⟨n', again, sameNode⟩ := unfolded.kept id m found
        cases Option.some.inj (node.symm.trans again)
        rw [value_at_node start id m found, (Node.same_of_unlisted sameNode).2.2.1]
      rw [standIn, if_neg new, Chain.exitOf, if_pos rfl]
      exact ⟨k, there, sameRole, sameValue.trans value⟩

theorem relay_all_run (f : Func) (start : Graph) (well : start.WellFormed) :
    ∃ h, ((staged f start).forM (expand f)).run start = .ok () h ∧ Unfolded start (staged f start) h ∧
      Relayed start (staged f start) h := by
  have once := staged_nodup f start well.indexed
  refine expand_each_run f start well (staged f start) (staged_inside f start well.indexed) (Relayed start)
    (relayed_refl start) ?_
  intro done id rest g h n split present unfolded node expanded relayed
  have new := not_met_before _ done rest id once split
  exact relayed_expanded start g h well done unfolded relayed _ id n node new present expanded

-- What the pass makes of the nodes: the end of a chain in place of each address computation, and the rest as it was.
structure StandsIn (f : Func) (g next : Graph) : Prop where
  replaced : ∀ u n, g.nodes.get? u = some n → isAddress f n = true → next.nodes.get? u = none ∧
    ∃ k, next.nodes.get? (standIn g (staged f g) u) = some k ∧ k.role = some .add1 ∧ k.value = n.value
  kept : ∀ u n, g.nodes.get? u = some n → isAddress f n = false → standIn g (staged f g) u = u ∧
    ∃ k, next.nodes.get? u = some k ∧ k.unlisted = n.unlisted

theorem stands_in_removed (f : Func) (g middle : Graph) (well : g.WellFormed)
    (unfolded : Unfolded g (staged f g) middle) (relayed : Relayed g (staged f g) middle) :
    StandsIn f g (withoutStaged f g middle) := by
  have read := get_fold_remove (staged f g) middle
  have listed : ∀ u n, g.nodes.get? u = some n → (u ∈ staged f g ↔ isAddress f n = true) := by
    intro u n found
    rw [mem_staged f g well.indexed]
    constructor
    · rintro ⟨m, there, address⟩
      cases Option.some.inj (found.symm.trans there)
      exact address
    · exact fun address => ⟨n, found, address⟩
  refine ⟨?_, ?_⟩
  · intro u n found address
    have member := (listed u n found).mpr address
    obtain ⟨k, there, role, value⟩ := relayed.ends u member
    refine ⟨(read u).trans (if_pos member), k, (read _).trans ?_, role, value.trans (value_at_node g u n found)⟩
    rw [if_neg, there]
    intro gone
    obtain ⟨m, held, _⟩ := (mem_staged f g well.indexed _).mp gone
    exact absurd (well.indexed.nodeBound _ m held) (Nat.not_le_of_lt (stand_in_young g (staged f g) u member))
  · intro u n found plain
    have other : u ∉ staged f g := by
      rw [listed u n found, plain]
      exact nofun
    obtain ⟨k, there, same⟩ := unfolded.kept u n found
    exact ⟨if_neg other, k, (read u).trans ((if_neg other).trans there), same⟩

theorem expansion_keeps_ways (body : Body) (g : Graph) (well : g.WellFormed) :
    ∃ next, (pass body).run g = .ok (!(staged body.func g).isEmpty) next ∧ StandsIn body.func g next ∧
      (∀ u v, (∃ n, g.nodes.get? u = some n) → (∃ n, g.nodes.get? v = some n) →
        (Relation.TransGen g.Linked u v ↔
          Relation.TransGen next.Linked (standIn g (staged body.func g) u) (standIn g (staged body.func g) v))) ∧
      ((∃ u, Relation.TransGen g.Linked u u) ↔ ∃ u, Relation.TransGen next.Linked u u) := by
  obtain ⟨middle, ran, unfolded, relayed⟩ := relay_all_run body.func g well
  have linked : (withoutStaged body.func g middle).Linked = middle.Linked := by
    have edges : (withoutStaged body.func g middle).edges = middle.edges :=
      (fold_remove_frame (staged body.func g) middle).1
    funext u v
    rw [Linked, Linked, edges]
  refine ⟨withoutStaged body.func g middle, pass_run body g middle well ran unfolded,
    stands_in_removed body.func g middle well unfolded relayed, ?_, ?_⟩
  · rintro u v ⟨n, first⟩ ⟨m, second⟩
    rw [linked]
    exact relayed.ways u v (well.indexed.nodeBound u n first) (well.indexed.nodeBound v m second)
  · rw [linked]
    exact relayed.cyclic

-- An address that is computed from another one, which is computed from the first and from itself.
def walking : Func :=
  let block := ((Func.new "walk").addBlock "loop" 1.0).1
  let phi := (block.push ⟨some "p", "phi", .ptr, [1], [], 0⟩).1
  let first := (phi.push ⟨some "q", "gep", .ptr, [0, 2], [], 0⟩).1
  (first.push ⟨some "r", "gep", .ptr, [1, 2, 1], [], 0⟩).1

def walkingCheck : Bool :=
  match DataLinks.supplied? ⟨0, walking, [0]⟩ with
  | none => false
  | some g =>
      g.lastNode == 3 && staged walking g == [2, 3] &&
        (g.edges.values.any fun e => e.source == 2 && e.target == 3) &&
        g.edges.values.any fun e => e.source == 3 && e.target == 2

theorem addresses_still_cyclic :
    ∃ g next, g.WellFormed ∧ Relation.TransGen g.Linked 2 3 ∧ Relation.TransGen g.Linked 3 2 ∧
      (pass ⟨0, walking, [0]⟩).run g = .ok true next ∧ Relation.TransGen next.Linked 4 8 ∧
      Relation.TransGen next.Linked 8 4 := by
  have check : walkingCheck = true := by decide +kernel
  unfold walkingCheck at check
  split at check
  · cases check
  · rename_i g supplied
    simp only [Bool.and_eq_true, beq_iff_eq, List.any_eq_true] at check
    obtain ⟨⟨⟨last, ids⟩, e, there, source, target⟩, e', back, source', target'⟩ := check
    obtain ⟨id, found⟩ := Table.mem_values.mp there
    obtain ⟨id', found'⟩ := Table.mem_values.mp back
    have well := DataLinks.supplied_well_formed _ g supplied
    have on : Relation.TransGen g.Linked 2 3 := .single ⟨id, e, found, source, target⟩
    have backwards : Relation.TransGen g.Linked 3 2 := .single ⟨id', e', found', source', target'⟩
    obtain ⟨n, first, _⟩ := (mem_staged walking g well.indexed 2).mp (by simp [ids])
    obtain ⟨m, second, _⟩ := (mem_staged walking g well.indexed 3).mp (by simp [ids])
    obtain ⟨next, ran, _, ways, _⟩ := expansion_keeps_ways ⟨0, walking, [0]⟩ g well
    have there := (ways 2 3 ⟨n, first⟩ ⟨m, second⟩).mp on
    have back := (ways 3 2 ⟨m, second⟩ ⟨n, first⟩).mp backwards
    have ids : staged (Body.mk 0 walking [0]).func g = [2, 3] := ids
    have exits : standIn g [2, 3] 2 = 4 ∧ standIn g [2, 3] 3 = 8 := by simp [standIn, last, Chain.above]
    rw [ids, exits.1, exits.2] at there back
    rw [ids] at ran
    exact ⟨g, next, well, on, backwards, ran, there, back⟩

end LoopDeps.AddressChains
