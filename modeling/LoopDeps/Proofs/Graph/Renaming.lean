import LoopDeps.Proofs.Graph.Relaying
set_option autoImplicit false

/- The expansion of all address computations, told as one renaming of the graph that was there before. An edge may start
   at one of them and end at another, or at the same, and is then attached anew twice. Both ends come out as if the
   other one had stayed, because the end of a chain has the value of the node it stands in for. -/
namespace LoopDeps.AddressChains

open LoopDeps.Graph

namespace Chain

theorem role_range (last key : NodeId) (role : ChainRole) (isRole : (above last).roleOf key = some role) :
    last < key ∧ key ≤ last + 4 := by
  refine ⟨role_above last key role isRole, Nat.le_of_not_lt fun above_ => ?_⟩
  have apart : ∀ k : Nat, k < 4 → key ≠ last + (k + 1) := by
    rintro k small rfl
    exact absurd (Nat.lt_of_add_lt_add_left above_) (Nat.not_lt_of_le small)
  have notAdd1 : key ≠ (above last).add1 := apart 0 (by decide)
  have notAdd2 : key ≠ (above last).add2 := apart 1 (by decide)
  have notMultiply : key ≠ (above last).multiply := apart 2 (by decide)
  have notSize : key ≠ (above last).size := apart 3 (by decide)
  rw [roleOf, if_neg notAdd1, if_neg notAdd2, if_neg notMultiply, if_neg notSize] at isRole
  cases isRole

-- A link between two nodes of the chain, under one of the three ids.
theorem link_range (last : NodeId) (lastEdge key : EdgeId) (weight : Float) (e : Edge)
    (made : (above last).links lastEdge weight key = some e) :
    lastEdge < key ∧ key ≤ lastEdge + 3 ∧ last < e.source ∧ last < e.target := by
  have young : ∀ k, last < last + (k + 1) := fun k => Nat.lt_add_of_pos_right (Nat.succ_pos k)
  have ids : ∀ k, k < 3 → lastEdge < lastEdge + (k + 1) ∧ lastEdge + (k + 1) ≤ lastEdge + 3 :=
    fun k small => ⟨Nat.lt_add_of_pos_right (Nat.succ_pos k), Nat.add_le_add_left small lastEdge⟩
  unfold links at made
  split at made
  · rename_i here
    cases made
    exact ⟨here ▸ (ids 0 (by decide)).1, here ▸ (ids 0 (by decide)).2, young 3, young 2⟩
  split at made
  · rename_i here
    cases made
    exact ⟨here ▸ (ids 1 (by decide)).1, here ▸ (ids 1 (by decide)).2, young 2, young 1⟩
  split at made
  · rename_i here
    cases made
    exact ⟨here ▸ (ids 2 (by decide)).1, here ▸ (ids 2 (by decide)).2, young 1, young 0⟩
  · cases made

theorem entry_young (last key : NodeId) (position : Option Nat) (old : key ≤ last) :
    (above last).entryOf position ≠ key := (not_entry last key old position).symm

end Chain

-- The chain that stands in for a node of `done`.
def chainOf (g : Graph) (done : List NodeId) (id : NodeId) : Chain := Chain.above (g.lastNode + 4 * done.idxOf id)

def operandsAt (f : Func) (g : Graph) (id : NodeId) : List ValueId := (f.instr? (g.valueAt id)).elim [] Instr.operands

-- Where an edge into the node ends when it carries `value`.
def wayIn (f : Func) (g : Graph) (done : List NodeId) (value : ValueId) (key : NodeId) : NodeId :=
  if key ∈ done then (chainOf g done key).entryOf ((operandsAt f g key).idxOf? value) else key

def renamed (f : Func) (g : Graph) (done : List NodeId) (e : Edge) : Edge :=
  { e with source := standIn g done e.source, target := wayIn f g done (g.valueAt e.source) e.target }

def linksOf (g : Graph) (done : List NodeId) (id : NodeId) : EdgeId → Option Edge :=
  (chainOf g done id).links (g.lastEdge + 3 * done.idxOf id) (g.weightOf id)

-- The graph with the nodes of `done` renamed, whether they are still there or not.
structure Renames (f : Func) (start : Graph) (done : List NodeId) (h : Graph) : Prop where
  lastNode : h.lastNode = start.lastNode + 4 * done.length
  lastEdge : h.lastEdge = start.lastEdge + 3 * done.length
  kept : ∀ key, key ≤ start.lastNode → key ∉ done → h.nodes.get? key = start.nodes.get? key
  parts : ∀ id ∈ done, ∀ key role, (chainOf start done id).roleOf key = some role →
    ∃ k, h.nodes.get? key = some k ∧ k.unlisted = Node.chain key (start.valueAt id) role (start.weightOf id)
  only : ∀ key k, h.nodes.get? key = some k →
    key ≤ start.lastNode ∨ ∃ id ∈ done, ∃ role, (chainOf start done id).roleOf key = some role
  edges : ∀ key, key ≤ start.lastEdge → h.edges.get? key = (start.edges.get? key).map (renamed f start done)
  links : ∀ key, start.lastEdge < key → ∀ e, h.edges.get? key = some e ↔ ∃ id ∈ done, linksOf start done id key = some e

theorem stand_in_chain (g : Graph) (done : List NodeId) (id : NodeId) (member : id ∈ done) :
    standIn g done id = (chainOf g done id).add1 := by
  rw [standIn, if_pos member, chainOf]

theorem renames_nothing (f : Func) (g : Graph) (well : g.WellFormed) : Renames f g [] g := by
  have same : renamed f g [] = id := funext fun e => by simp [renamed, standIn, wayIn]
  refine ⟨rfl, rfl, fun _ _ _ => rfl, fun _ member => (List.not_mem_nil member).elim, ?_, ?_, ?_⟩
  · exact fun key k found => Or.inl (well.indexed.nodeBound key k found)
  · intro key _
    rw [same, Option.map_id, id]
  · intro key young e
    constructor
    · exact fun found => absurd (well.edgeBound key e found) (Nat.not_le_of_lt young)
    · rintro ⟨_, none, _⟩
      cases none

section

variable (f : Func) (start : Graph) (well : start.WellFormed) (done : List NodeId) (id : NodeId)

theorem chain_of_earlier (old : NodeId) (member : old ∈ done) :
    chainOf start (done ++ [id]) old = chainOf start done old ∧
      linksOf start (done ++ [id]) old = linksOf start done old := by
  simp only [linksOf, chainOf, List.idxOf_append_of_mem member, and_self]

theorem chain_of_new (new : id ∉ done) :
    chainOf start (done ++ [id]) id = Chain.above (start.lastNode + 4 * done.length) ∧
      linksOf start (done ++ [id]) id = (Chain.above (start.lastNode + 4 * done.length)).links
        (start.lastEdge + 3 * done.length) (start.weightOf id) := by
  have place : (done ++ [id]).idxOf id = done.length := by
    rw [List.idxOf_append_of_notMem new, List.idxOf_cons_self, Nat.add_zero]
  simp only [linksOf, chainOf, place, and_self]

theorem way_in_next (new : id ∉ done) (old : id ≤ start.lastNode) (value : ValueId) (key : NodeId) :
    wayIn f start (done ++ [id]) value key =
      if wayIn f start done value key = id then
        (Chain.above (start.lastNode + 4 * done.length)).entryOf ((operandsAt f start id).idxOf? value)
      else wayIn f start done value key := by
  by_cases member : key ∈ done
  · have other : wayIn f start done value key ≠ id := by
      rw [wayIn, if_pos member]
      exact Chain.entry_young _ id _ (Nat.le_trans old (Nat.le_add_right _ _))
    rw [if_neg other, wayIn, if_pos (List.mem_append_left _ member), (chain_of_earlier start done id key member).1,
      wayIn, if_pos member]
  · have before : wayIn f start done value key = key := if_neg member
    rw [before]
    by_cases same : key = id
    · subst same
      rw [if_pos rfl, wayIn, if_pos (by simp), (chain_of_new start done key new).1]
    · rw [if_neg same, wayIn, if_neg (by simp [member, same])]

-- No link has an end at a node that was there before.
theorem link_apart (old : id ≤ start.lastNode) (one : NodeId) (key : EdgeId) (e : Edge)
    (link : linksOf start done one key = some e) : e.source ≠ id ∧ e.target ≠ id := by
  obtain ⟨_, _, source, target⟩ := Chain.link_range _ _ key _ e link
  have low := Nat.le_trans old (Nat.le_add_right start.lastNode (4 * done.idxOf one))
  exact ⟨Nat.ne_of_gt (Nat.lt_of_le_of_lt low source), Nat.ne_of_gt (Nat.lt_of_le_of_lt low target)⟩

variable (g h : Graph) (renames : Renames f start done g)

include renames

-- So that an edge carries the same value wherever its start was moved to.
theorem stand_in_value (key : NodeId) (bound : key ≤ start.lastNode) :
    g.valueAt (standIn start done key) = start.valueAt key := by
  by_cases member : key ∈ done
  · obtain ⟨k, there, same⟩ := renames.parts key member (chainOf start done key).add1 .add1 (Chain.role_of_add1 _)
    rw [stand_in_chain start done key member, value_at_node g _ k there]
    exact congrArg Node.value same
  · rw [standIn, if_neg member, valueAt, renames.kept key bound member, valueAt]

include well

-- An edge renamed for the nodes of before is moved to where it goes with one more.
theorem renamed_next (new : id ∉ done) (old : id ≤ start.lastNode) (key : EdgeId) (e : Edge)
    (found : start.edges.get? key = some e) :
    (renamed f start done e).redirected id (Chain.above g.lastNode).add1 ((Chain.above g.lastNode).entryOf
      ((operandsAt f start id).idxOf? (g.valueAt (renamed f start done e).source))) =
      renamed f start (done ++ [id]) e := by
  obtain ⟨s, source, _⟩ := well.mirrored.listed .source key e found
  have bound : e.source ≤ start.lastNode := well.indexed.nodeBound _ s source
  have carried : g.valueAt (renamed f start done e).source = start.valueAt e.source :=
    stand_in_value f start done g renames e.source bound
  rw [carried, renames.lastNode, renamed, renamed, stand_in_next start done id e.source new old,
    way_in_next f start done id new old]
  rfl

theorem renames_edges (n : Node) (node : start.nodes.get? id = some n) (new : id ∉ done)
    (expanded : Expanded (operandsAt f start id) id n g h) (key : EdgeId) (before : key ≤ start.lastEdge) :
    h.edges.get? key = (start.edges.get? key).map (renamed f start (done ++ [id])) := by
  have old : id ≤ start.lastNode := well.indexed.nodeBound id n node
  have low : key ≤ g.lastEdge := renames.lastEdge ▸ Nat.le_trans before (Nat.le_add_right _ _)
  rw [expanded.edges, Chain.links_old _ g.lastEdge key n.weight low, renames.edges key before]
  cases found : start.edges.get? key with
  | none => rfl
  | some e =>
      rw [Option.map_some, Option.map_some, Option.map_some]
      exact congrArg some (renamed_next f start well done id g renames new old key e found)

-- A link of before stays, and those of the chain come behind it.
theorem renames_links (wellHere : g.WellFormed) (n : Node) (node : start.nodes.get? id = some n) (new : id ∉ done)
    (expanded : Expanded (operandsAt f start id) id n g h) (key : EdgeId) (young : start.lastEdge < key) (e : Edge) :
    h.edges.get? key = some e ↔ ∃ one ∈ done ++ [id], linksOf start (done ++ [id]) one key = some e := by
  have old : id ≤ start.lastNode := well.indexed.nodeBound id n node
  have weight : n.weight = start.weightOf id := by rw [weightOf, node, Option.elim_some]
  have made : linksOf start (done ++ [id]) id key = (Chain.above g.lastNode).links g.lastEdge n.weight key := by
    rw [(chain_of_new start done id new).2, renames.lastNode, renames.lastEdge, weight]
  have earlier : (∃ one ∈ done ++ [id], linksOf start (done ++ [id]) one key = some e) ↔
      (∃ one ∈ done, linksOf start done one key = some e) ∨ linksOf start (done ++ [id]) id key = some e := by
    constructor
    · rintro ⟨one, member, link⟩
      rcases List.mem_append.mp member with before | last
      · exact Or.inl ⟨one, before, (chain_of_earlier start done id one before).2 ▸ link⟩
      · exact Or.inr (List.mem_singleton.mp last ▸ link)
    · rintro (⟨one, before, link⟩ | link)
      · refine ⟨one, List.mem_append_left _ before, ?_⟩
        rwa [(chain_of_earlier start done id one before).2]
      · exact ⟨id, by simp, link⟩
  rw [earlier, made, ← renames.links key young e, expanded.edges]
  cases link : (Chain.above g.lastNode).links g.lastEdge n.weight key with
  | some made =>
      have above_ := (Chain.link_range g.lastNode g.lastEdge key n.weight made link).1
      have free : g.edges.get? key ≠ some e :=
        fun found => absurd (wellHere.edgeBound key e found) (Nat.not_le_of_lt above_)
      simp only [free, false_or]
  | none =>
      have stays : ∀ o, g.edges.get? key = some o → o.redirected id (Chain.above g.lastNode).add1
          ((Chain.above g.lastNode).entryOf ((operandsAt f start id).idxOf? (g.valueAt o.source))) = o := by
        intro o found
        obtain ⟨one, _, isLink⟩ := (renames.links key young o).mp found
        obtain ⟨source, target⟩ := link_apart start done id old one key o isLink
        simp only [Edge.redirected, if_neg source, if_neg target]
      cases found : g.edges.get? key with
      | none => simp
      | some o => simp [stays o found]

theorem renames_expanded (wellHere : g.WellFormed) (n : Node) (node : start.nodes.get? id = some n) (new : id ∉ done)
    (expanded : Expanded (operandsAt f start id) id n g h) : Renames f start (done ++ [id]) h := by
  have size : (done ++ [id]).length = done.length + 1 := by rw [List.length_append, List.length_singleton]
  have value : n.value = start.valueAt id := (value_at_node start id n node).symm
  have weight : n.weight = start.weightOf id := by rw [weightOf, node, Option.elim_some]
  have chain : chainOf start (done ++ [id]) id = Chain.above g.lastNode := by
    rw [(chain_of_new start done id new).1, renames.lastNode]
  refine ⟨?_, ?_, ?_, ?_, ?_, renames_edges f start well done id g h renames n node new expanded,
    renames_links f start well done id g h renames wellHere n node new expanded⟩
  · rw [expanded.lastNode, renames.lastNode, size, Nat.mul_add, Nat.add_assoc]
  · rw [expanded.lastEdge, renames.lastEdge, size, Nat.mul_add, Nat.add_assoc]
  · intro key inside other
    simp only [List.mem_append, List.mem_singleton, not_or] at other
    rw [expanded.untouched key (renames.lastNode ▸ Nat.le_trans inside (Nat.le_add_right _ _)) other.2,
      renames.kept key inside other.1]
  · intro one member key role isRole
    rcases List.mem_append.mp member with before | last
    · rw [(chain_of_earlier start done id one before).1] at isRole
      obtain ⟨k, there, same⟩ := renames.parts one before key role isRole
      obtain ⟨k', here, again⟩ := expanded_old _ id n g h wellHere expanded key k there
      exact ⟨k', here, again.trans same⟩
    · cases List.mem_singleton.mp last
      rw [chain] at isRole
      obtain ⟨k, here, same⟩ := expanded_chain _ id n g h expanded key role isRole
      exact ⟨k, here, value ▸ weight ▸ same⟩
  · intro key k found
    rcases expanded_origin _ id n g h expanded key k found with ⟨m, there, _⟩ | ⟨role, isRole, _⟩
    · refine (renames.only key m there).imp_right ?_
      rintro ⟨one, before, role, isRole⟩
      exact ⟨one, List.mem_append_left _ before, role, (chain_of_earlier start done id one before).1 ▸ isRole⟩
    · exact Or.inr ⟨id, by simp, role, chain ▸ isRole⟩

end

theorem rename_all_run (f : Func) (start : Graph) (well : start.WellFormed) :
    ∃ h, ((staged f start).forM (expand f)).run start = .ok () h ∧ Unfolded start (staged f start) h ∧
      Renames f start (staged f start) h := by
  have once := staged_nodup f start well.indexed
  refine expand_each_run f start well (staged f start) (staged_inside f start well.indexed) (Renames f start)
    (renames_nothing f start well) ?_
  intro done id rest g h n split present unfolded node expanded renames
  have new := not_met_before _ done rest id once split
  obtain ⟨m, there⟩ := present id (by simp)
  -- The node is as it was, whatever was expanded before it.
  have same := renames.kept id (well.indexed.nodeBound id m there) new
  have first : start.nodes.get? id = some n := same.symm.trans node
  have operands : (f.instr? n.value).elim [] Instr.operands = operandsAt f start id := by
    rw [operandsAt, value_at_node start id n first]
  exact renames_expanded f start well done id g h renames unfolded.well n first new (operands ▸ expanded)

theorem fold_remove_last (ids : List NodeId) (g : Graph) :
    (ids.foldl removeNode g).lastNode = g.lastNode ∧ (ids.foldl removeNode g).lastEdge = g.lastEdge := by
  induction ids generalizing g with
  | nil => exact ⟨rfl, rfl⟩
  | cons id rest ih =>
      obtain ⟨_, _, lastNode, lastEdge⟩ := remove_node_frame g id
      obtain ⟨laterNode, laterEdge⟩ := ih (g.removeNode id)
      exact ⟨laterNode.trans lastNode, laterEdge.trans lastEdge⟩

-- Where each node goes that is replaced.
structure Replaces (g : Graph) (ids : List NodeId) (next : Graph) : Prop where
  removed : ∀ id ∈ ids, next.nodes.get? id = none
  detached : ∀ key e, next.edges.get? key = some e → e.source ∉ ids ∧ e.target ∉ ids
  fresh : ∀ id ∈ ids, ∀ key role, (chainOf g ids id).roleOf key = some role → g.lastNode < key
  apart : ∀ id ∈ ids, ∀ other ∈ ids, ∀ key role otherRole, (chainOf g ids id).roleOf key = some role →
    (chainOf g ids other).roleOf key = some otherRole → id = other
  size : next.size = g.size + 3 * ids.length
  edgeCount : next.edges.size = g.edges.size + 3 * ids.length

theorem chain_of_fresh (g : Graph) (ids : List NodeId) (id key : NodeId) (role : ChainRole)
    (isRole : (chainOf g ids id).roleOf key = some role) : g.lastNode < key :=
  Nat.lt_of_le_of_lt (Nat.le_add_right g.lastNode (4 * ids.idxOf id)) (Chain.role_range _ key role isRole).1

theorem chains_apart (g : Graph) (ids : List NodeId) (id other key : NodeId) (role otherRole : ChainRole)
    (member : id ∈ ids) (isRole : (chainOf g ids id).roleOf key = some role)
    (isToo : (chainOf g ids other).roleOf key = some otherRole) : id = other := by
  have fits : ∀ last i j key : Nat, last + 4 * i < key → key ≤ last + 4 * i + 4 → last + 4 * j < key →
      key ≤ last + 4 * j + 4 → i = j := by omega
  obtain ⟨low, high⟩ := Chain.role_range _ key role isRole
  obtain ⟨low', high'⟩ := Chain.role_range _ key otherRole isToo
  exact (List.idxOf_inj member).mp (fits g.lastNode _ _ key low high low' high')

theorem renames_removed (f : Func) (g middle : Graph) (well : g.WellFormed)
    (renames : Renames f g (staged f g) middle) : Renames f g (staged f g) (withoutStaged f g middle) := by
  have read := get_fold_remove (staged f g) middle
  have edges : (withoutStaged f g middle).edges = middle.edges := (fold_remove_frame (staged f g) middle).1
  obtain ⟨lastNode, lastEdge⟩ := fold_remove_last (staged f g) middle
  refine ⟨lastNode.trans renames.lastNode, lastEdge.trans renames.lastEdge, ?_, ?_, ?_, edges ▸ renames.edges,
    edges ▸ renames.links⟩
  · intro key inside other
    exact (read key).trans ((if_neg other).trans (renames.kept key inside other))
  · intro id member key role isRole
    obtain ⟨k, there, same⟩ := renames.parts id member key role isRole
    refine ⟨k, (read key).trans ((if_neg fun gone => ?_).trans there), same⟩
    obtain ⟨n, node, _⟩ := staged_inside f g well.indexed key gone
    exact absurd (well.indexed.nodeBound key n node) (Nat.not_le_of_lt (chain_of_fresh g _ id key role isRole))
  · intro key k found
    have before : (if key ∈ staged f g then none else middle.nodes.get? key) = some k := (read key).symm.trans found
    split at before
    · cases before
    · exact renames.only key k before

theorem replaces_removed (f : Func) (g middle : Graph) (well : g.WellFormed)
    (unfolded : Unfolded g (staged f g) middle) : Replaces g (staged f g) (withoutStaged f g middle) := by
  have edges : (withoutStaged f g middle).edges = middle.edges := (fold_remove_frame (staged f g) middle).1
  obtain ⟨_, size, edgeCount⟩ := unfolded_removed f g middle well unfolded
  refine ⟨?_, ?_, fun id _ key role => chain_of_fresh g _ id key role, ?_, size, edgeCount⟩
  · exact fun id member => (get_fold_remove (staged f g) middle id).trans (if_pos member)
  · rw [edges]
    intro key e found
    constructor
    · exact fun member => (unfolded.detached e.source member key e found).1 rfl
    · exact fun member => (unfolded.detached e.target member key e found).2 rfl
  · exact fun id member other _ key role otherRole => chains_apart g _ id other key role otherRole member

-- What is left is as it was before, or has a place in a chain.
theorem nothing_staged (f : Func) (g next : Graph) (well : g.WellFormed) (wellNext : next.WellFormed)
    (renames : Renames f g (staged f g) next) (removed : ∀ id ∈ staged f g, next.nodes.get? id = none) :
    staged f next = [] := by
  refine List.eq_nil_iff_forall_not_mem.mpr fun id member => ?_
  obtain ⟨n, node, address⟩ := (mem_staged f next wellNext.indexed id).mp member
  rcases renames.only id n node with inside | ⟨one, before, role, isRole⟩
  · by_cases gone : id ∈ staged f g
    · cases (removed id gone).symm.trans node
    · have same : g.nodes.get? id = some n := (renames.kept id inside gone).symm.trans node
      exact gone ((mem_staged f g well.indexed id).mpr ⟨n, same, address⟩)
  · obtain ⟨k, there, part⟩ := renames.parts one before id role isRole
    cases Option.some.inj (node.symm.trans there)
    cases (congrArg Node.role part).symm.trans (address_plain f n address).2.1

theorem pass_idle (body : Body) (g : Graph) (well : g.WellFormed) (idle : staged body.func g = []) :
    (pass body).run g = .ok false g := by
  have ran := pass_run body g g well (by rw [idle]; rfl) (idle ▸ unfolded_refl g well)
  rwa [withoutStaged, idle] at ran

-- The pass is one renaming, and a second one finds nothing to do.
theorem expansion_renames (body : Body) (g : Graph) (well : g.WellFormed) :
    ∃ next, (pass body).run g = .ok (!(staged body.func g).isEmpty) next ∧ next.WellFormed ∧
      Renames body.func g (staged body.func g) next ∧ Replaces g (staged body.func g) next ∧
      (pass body).run next = .ok false next := by
  obtain ⟨middle, ran, unfolded, renames⟩ := rename_all_run body.func g well
  have wellNext := (unfolded_removed body.func g middle well unfolded).1
  have after := renames_removed body.func g middle well renames
  have replaces := replaces_removed body.func g middle well unfolded
  have idle := nothing_staged body.func g _ well wellNext after replaces.removed
  exact ⟨_, pass_run body g middle well ran unfolded, wellNext, after, replaces, pass_idle body _ wellNext idle⟩

def walkingEnds : Bool :=
  (DataLinks.supplied? ⟨0, walking, [0]⟩).any fun g =>
    staged walking g == [2, 3] && (g.edges.get? 5).any fun e => e.source == 3 && e.target == 3 &&
      standIn g [2, 3] 3 == 8 && wayIn walking g [2, 3] (g.valueAt 3) 3 == 9

-- The edge from the second address to itself, as its first index.
theorem own_index_renamed :
    ∃ g next e, g.WellFormed ∧ g.edges.get? 5 = some e ∧ e.source = 3 ∧ e.target = 3 ∧
      (pass ⟨0, walking, [0]⟩).run g = .ok true next ∧ next.nodes.get? 3 = none ∧
      next.edges.get? 5 = some { e with source := 8, target := 9 } ∧
      (pass ⟨0, walking, [0]⟩).run next = .ok false next := by
  have check : walkingEnds = true := by decide +kernel
  obtain ⟨g, supplied, holds⟩ := (Option.any_eq_true _ _).mp check
  simp only [Bool.and_eq_true, beq_iff_eq, Option.any_eq_true] at holds
  obtain ⟨ids, e, found, ⟨⟨source, target⟩, out⟩, into⟩ := holds
  have well := DataLinks.supplied_well_formed _ g supplied
  obtain ⟨next, ran, _, renames, replaces, again⟩ := expansion_renames ⟨0, walking, [0]⟩ g well
  have ids : staged (Body.mk 0 walking [0]).func g = [2, 3] := ids
  rw [ids] at ran renames replaces
  refine ⟨g, next, e, well, found, source, target, ran, replaces.removed 3 (by simp), ?_, again⟩
  rw [renames.edges 5 (well.edgeBound 5 e found), found, Option.map_some, renamed, source, target, out, into]

end LoopDeps.AddressChains
