import Mathlib.Data.List.Chain
import Mathlib.Logic.Relation
import LoopDeps.Proofs.Graph.Inserting
import LoopDeps.Proofs.Graph.Search
set_option autoImplicit false

/- Without the marked edges a mirrored graph has no cycle, and each marked edge closes one. The nodes
   off the path are kept in the reverse of the order they were left in: behind the path they make up an
   order that every examined and unmarked edge goes along. -/
namespace LoopDeps

namespace Graph

def Linked (g : Graph) (u v : NodeId) : Prop :=
  ∃ id e, g.edges.get? id = some e ∧ e.source = u ∧ e.target = v

-- Some edge that is no backedge goes from `u` to `v`.
def Forward (g : Graph) (u v : NodeId) : Prop :=
  ∃ id e, g.edges.get? id = some e ∧ e.backedge = false ∧ e.source = u ∧ e.target = v

def unmark (g : Graph) (id : EdgeId) : Graph :=
  { g with edges := g.edges.modify id fun e => { e with backedge := false } }

end Graph

namespace Backedges

namespace Search

-- Some edge that the search has looked at and not marked goes from `u` to `v`.
def Kept (g : Graph) (s : Search) (u v : NodeId) : Prop :=
  ∃ id e, g.edges.get? id = some e ∧ id ∈ s.examined ∧ id ∉ s.marked ∧ e.source = u ∧ e.target = v

-- A way by kept edges through nodes that were entered after the first one.
def Returns (g : Graph) (s : Search) (first last : NodeId) : Prop :=
  ∃ before after, s.entered = before ++ first :: after ∧
    Relation.ReflTransGen (fun u v => Kept g s u v ∧ v ∈ after) first last

-- The path from the root on, then the nodes already left.
def trail (s : Search) (left : List NodeId) : List NodeId := s.path.reverse ++ left

structure Sorted (g : Graph) (s : Search) (left : List NodeId) : Prop where
  members : ∀ id, id ∈ trail s left ↔ id ∈ s.entered
  once : (trail s left).Nodup
  forward : ∀ u v, Kept g s u v → [u, v].Sublist (trail s left)
  linked : s.path.reverse.IsChain (Kept g s)
  returns : ∀ id ∈ s.marked, ∃ e, g.edges.get? id = some e ∧ Returns g s e.target e.source

theorem sorted_start (g : Graph) : Sorted g (start g) [] := by
  have nothing : ∀ u v, ¬Kept g (start g) u v := by
    rintro u v ⟨id, e, _, examined, _⟩
    cases examined
  refine ⟨by simp [trail, path, start], List.nodup_nil, fun u v kept => absurd kept (nothing u v), .nil, ?_⟩
  intro id marked
  cases marked

-- An edge that is kept stays so: only edges not examined before are marked.
theorem kept_event (g : Graph) (s next : Search) (books : Books g s) (event : Event g s next) (u v : NodeId)
    (kept : Kept g s u v) : Kept g next u v := by
  obtain ⟨id, e, found, examined, unmarked, source, target⟩ := kept
  cases event with
  | skip | start | leave => exact ⟨id, e, found, examined, unmarked, source, target⟩
  | pass | descend => exact ⟨id, e, found, List.mem_append_left _ examined, unmarked, source, target⟩
  | mark new _ pending below busy _ _ =>
      refine ⟨id, e, found, List.mem_append_left _ examined, ?_, source, target⟩
      intro marked
      rcases List.mem_append.mp marked with before | last
      · exact unmarked before
      · cases List.mem_singleton.mp last
        exact books.pendingNew _ (busy ▸ List.mem_cons_self) id List.mem_cons_self examined

theorem entered_event (g : Graph) (s next : Search) (event : Event g s next) :
    ∃ new, next.entered = s.entered ++ new := by
  cases event with
  | skip | leave | mark | pass => exact ⟨[], (List.append_nil _).symm⟩
  | start root => exact ⟨[root], rfl⟩
  | descend _ e => exact ⟨[e.target], rfl⟩

theorem returns_event (g : Graph) (s next : Search) (books : Books g s) (event : Event g s next)
    (first last : NodeId) (returns : Returns g s first last) : Returns g next first last := by
  obtain ⟨before, after, split, way⟩ := returns
  obtain ⟨new, entered⟩ := entered_event g s next event
  refine ⟨before, after ++ new, by rw [entered, split, List.append_assoc, List.cons_append], ?_⟩
  refine Relation.ReflTransGen.mono ?_ first last way
  exact fun u v step => ⟨kept_event g s next books event u v step.1, List.mem_append_left _ step.2⟩

-- The path itself is a way back from each of its nodes to the innermost one.
theorem path_returns (g : Graph) (s : Search) (books : Books g s) (top first : NodeId)
    (below : List Frame) (pending : List EdgeId) (busy : s.stack = ⟨top, pending⟩ :: below)
    (linked : s.path.reverse.IsChain (Kept g s)) (onPath : first ∈ s.path) : Returns g s first top := by
  obtain ⟨outer, inner, split⟩ := List.append_of_mem (List.mem_reverse.mpr onPath)
  have sub : (outer ++ first :: inner).Sublist s.entered := split ▸ books.order
  obtain ⟨before, rest, entered, _, subRest⟩ := List.append_sublist_iff.mp sub
  obtain ⟨here, after, restSplit, member, subAfter⟩ := List.cons_sublist_iff.mp subRest
  obtain ⟨pre, post, hereSplit⟩ := List.append_of_mem member
  refine ⟨before ++ pre, post ++ after, by simp [entered, restSplit, hereSplit], ?_⟩
  have chain : (first :: inner).IsChain (Kept g s) := (split ▸ linked).right_of_append
  have last : (first :: inner).getLast (List.cons_ne_nil _ _) = top := by
    have whole : s.path.reverse.getLast? = some top := by simp [path, busy]
    rw [split, List.getLast?_append, List.getLast?_cons] at whole
    simpa [List.getLast?_cons, List.getLast_eq_getLastD] using whole
  refine List.relationReflTransGen_of_exists_isChain_cons inner
    ((List.IsChain.iff_mem_mem_tail.mp chain).imp ?_) last
  exact fun u v step => ⟨step.2.2, List.mem_append_right _ (subAfter.subset step.2.1)⟩

-- Looking at one more edge keeps at most that edge.
theorem kept_examined (g : Graph) (s next : Search) (id : EdgeId) (e : Edge)
    (found : g.edges.get? id = some e) (u v : NodeId) (kept : Kept g next u v)
    (examined : next.examined = s.examined ++ [id]) (marked : next.marked = s.marked) :
    Kept g s u v ∨ u = e.source ∧ v = e.target := by
  obtain ⟨other, o, otherFound, looked, unmarked, source, target⟩ := kept
  rcases List.mem_append.mp (examined ▸ looked) with before | last
  · exact Or.inl ⟨other, o, otherFound, before, marked ▸ unmarked, source, target⟩
  · rw [List.mem_singleton.mp last, found] at otherFound
    cases otherFound
    exact Or.inr ⟨source.symm, target.symm⟩

-- An edge that is marked as it is looked at is not kept.
theorem kept_marked (g : Graph) (s next : Search) (id : EdgeId) (u v : NodeId) (kept : Kept g next u v)
    (examined : next.examined = s.examined ++ [id]) (marked : next.marked = s.marked ++ [id]) : Kept g s u v := by
  obtain ⟨other, o, found, looked, unmarked, source, target⟩ := kept
  rw [marked] at unmarked
  rcases List.mem_append.mp (examined ▸ looked) with before | last
  · exact ⟨other, o, found, before, fun was => unmarked (List.mem_append_left _ was), source, target⟩
  · exact absurd (List.mem_append_right _ last) unmarked

-- An edge to a new node prolongs the path.
theorem linked_descended (g : Graph) (s next : Search) (books : Books g s) (id : EdgeId) (e : Edge)
    (pending : List EdgeId) (below : List Frame) (busy : s.stack = ⟨e.source, id :: pending⟩ :: below)
    (edge : g.edges.get? id = some e) (deeper : next.path = e.target :: s.path)
    (examined : next.examined = s.examined ++ [id]) (marked : next.marked = s.marked)
    (linked : s.path.reverse.IsChain (Kept g next)) : next.path.reverse.IsChain (Kept g next) := by
  rw [deeper, List.reverse_cons]
  refine linked.append (List.IsChain.singleton _) ?_
  intro last isLast first isFirst
  have top : s.path.reverse.getLast? = some e.source := by simp [path, busy]
  cases Option.some.inj (top.symm.trans isLast)
  cases isFirst
  have unmarked : id ∉ s.marked := fun was =>
    books.pendingNew _ (busy ▸ List.mem_cons_self) id List.mem_cons_self (books.markedExamined id was)
  exact ⟨id, e, edge, examined ▸ List.mem_append_right _ List.mem_cons_self, marked ▸ unmarked, rfl, rfl⟩

theorem sorted_left (g : Graph) (s : Search) (left : List NodeId) (sorted : Sorted g s left) (top : NodeId)
    (below : List Frame) (done : s.stack = ⟨top, []⟩ :: below) :
    Sorted g { s with stack := below } (top :: left) := by
  have outer : s.path.reverse = (below.map Frame.node).reverse ++ [top] := by simp [path, done]
  have same : trail { s with stack := below } (top :: left) = trail s left := by
    rw [trail, trail, outer, List.append_assoc]
    rfl
  refine ⟨?_, same ▸ sorted.once, ?_, ?_, sorted.returns⟩
  · exact fun id => same ▸ sorted.members id
  · exact fun u v kept => same ▸ sorted.forward u v kept
  · exact (outer ▸ sorted.linked).left_of_append

-- A new node takes the place between the path and the nodes left before.
theorem sorted_entered (g : Graph) (s : Search) (left : List NodeId) (sorted : Sorted g s left)
    (id : NodeId) (new : id ∉ s.entered) (next : Search) (path : next.path = id :: s.path)
    (entered : next.entered = s.entered ++ [id]) :
    (∀ key, key ∈ trail next left ↔ key ∈ next.entered) ∧ (trail next left).Nodup ∧
      (trail s left).Sublist (trail next left) := by
  have middle : trail next left = s.path.reverse ++ id :: left := by simp [trail, path]
  have absent : id ∉ s.path.reverse ++ left := fun member => new ((sorted.members id).mp member)
  rw [middle, entered]
  refine ⟨?_, List.nodup_middle.mpr (List.nodup_cons.mpr ⟨absent, sorted.once⟩), ?_⟩
  · intro key
    have before := sorted.members key
    rw [trail, List.mem_append] at before
    rw [List.mem_append, List.mem_cons, List.mem_append, List.mem_singleton, ← before]
    constructor
    · rintro (onPath | here | gone)
      · exact Or.inl (Or.inl onPath)
      · exact Or.inr here
      · exact Or.inl (Or.inr gone)
    · rintro ((onPath | gone) | here)
      · exact Or.inl onPath
      · exact Or.inr (Or.inr gone)
      · exact Or.inr (Or.inl here)
  · exact (List.Sublist.refl _).append (List.sublist_cons_self id left)

-- The path and the nodes off it stay while an edge is looked at.
theorem sorted_examined (g : Graph) (s next : Search) (left : List NodeId) (sorted : Sorted g s left)
    (samePath : next.path = s.path) (entered : next.entered = s.entered)
    (forward : ∀ u v, Kept g next u v → Kept g s u v ∨ [u, v].Sublist (trail s left))
    (linked : s.path.reverse.IsChain (Kept g next))
    (returns : ∀ id ∈ next.marked, ∃ e, g.edges.get? id = some e ∧ Returns g next e.target e.source) :
    Sorted g next left := by
  have same : trail next left = trail s left := by rw [trail, samePath, trail]
  refine ⟨?_, same ▸ sorted.once, ?_, samePath ▸ linked, returns⟩
  · exact fun key => same ▸ entered ▸ sorted.members key
  · intro u v kept
    rw [same]
    exact (forward u v kept).elim (sorted.forward u v) fun along => along

theorem sorted_event (g : Graph) (s next : Search) (books : Books g s) (left : List NodeId)
    (sorted : Sorted g s left) (event : Event g s next) : ∃ nextLeft, Sorted g next nextLeft := by
  have returns : ∀ id ∈ s.marked, ∃ e, g.edges.get? id = some e ∧ Returns g next e.target e.source := by
    intro id marked
    obtain ⟨e, found, back⟩ := sorted.returns id marked
    exact ⟨e, found, returns_event g s next books event _ _ back⟩
  have linked : s.path.reverse.IsChain (Kept g next) :=
    sorted.linked.imp fun u v => kept_event g s next books event u v
  cases event with
  | skip root rest _ _ _ =>
      exact ⟨left, sorted.members, sorted.once, sorted.forward, sorted.linked, sorted.returns⟩
  | start root rest n idle _ new _ =>
      obtain ⟨members, once, wider⟩ :=
        sorted_entered g s left sorted root new
          { s with roots := rest, stack := [⟨root, n.outgoing⟩], entered := s.entered ++ [root] }
          (by simp [path, idle]) rfl
      exact ⟨left, members, once, fun u v kept => (sorted.forward u v kept).trans wider,
        List.IsChain.singleton root, returns⟩
  | leave top below done => exact ⟨top :: left, sorted_left g s left sorted top below done⟩
  | mark id e pending below busy edge onPath =>
      refine ⟨left, sorted_examined g s _ left sorted (by simp [path, busy]) rfl ?_ linked ?_⟩
      · exact fun u v kept => Or.inl (kept_marked g s _ id u v kept rfl rfl)
      · intro other marked
        rcases List.mem_append.mp marked with before | last
        · exact returns other before
        · have back := path_returns g s books e.source e.target below (id :: pending) busy sorted.linked onPath
          exact ⟨e, List.mem_singleton.mp last ▸ edge,
            returns_event g s _ books (.mark id e pending below busy edge onPath) _ _ back⟩
  | pass id e pending below busy edge known offPath =>
      have gone : e.target ∈ left := by
        rcases List.mem_append.mp ((sorted.members e.target).mpr known) with onPath | gone
        · exact absurd (List.mem_reverse.mp onPath) offPath
        · exact gone
      have here : e.source ∈ s.path.reverse := by simp [path, busy]
      refine ⟨left, sorted_examined g s _ left sorted (by simp [path, busy]) rfl ?_ linked returns⟩
      intro u v kept
      refine (kept_examined g s _ id e edge u v kept rfl rfl).imp_right ?_
      rintro ⟨rfl, rfl⟩
      exact (List.singleton_sublist.mpr here).append (List.singleton_sublist.mpr gone)
  | descend id e n pending below busy edge new _ =>
      let next : Search :=
        { s with
          stack := ⟨e.target, n.outgoing⟩ :: ⟨e.source, pending⟩ :: below
          entered := s.entered ++ [e.target]
          examined := s.examined ++ [id] }
      have deeper : next.path = e.target :: s.path := by simp [next, path, busy]
      obtain ⟨members, once, wider⟩ := sorted_entered g s left sorted e.target new next deeper rfl
      refine ⟨left, members, once, ?_, ?_, returns⟩
      · intro u v kept
        rcases kept_examined g s next id e edge u v kept rfl rfl with before | ⟨rfl, rfl⟩
        · exact (sorted.forward u v before).trans wider
        · have here : e.source ∈ s.path.reverse := by simp [path, busy]
          have middle : trail next left = s.path.reverse ++ ([e.target] ++ left) := by simp [trail, deeper]
          rw [middle]
          exact (List.singleton_sublist.mpr here).append (List.sublist_append_left _ _)
      · exact linked_descended g s next books id e pending below busy edge deeper rfl rfl linked

theorem search_sorted (g : Graph) (mirrored : g.Mirrored) :
    Books g (search g) ∧ (search g).stack = [] ∧ ∃ left, Sorted g (search g) left := by
  obtain ⟨books, sorted, idle, _⟩ := search_invariant g mirrored (fun s => ∃ left, Sorted g s left)
    ⟨[], sorted_start g⟩ fun s next books ⟨left, sorted⟩ event => sorted_event g s next books left sorted event
  exact ⟨books, idle, sorted⟩

theorem search_examined (g : Graph) (mirrored : g.Mirrored) (id : EdgeId) (e : Edge)
    (found : g.edges.get? id = some e) : id ∈ (search g).examined := by
  obtain ⟨books, _, idle, done⟩ := search_invariant g mirrored (fun _ => True) trivial fun _ _ _ _ _ => trivial
  obtain ⟨n, node, _⟩ := mirrored.listed .source id e found
  have entered : e.source ∈ (search g).entered := by
    rcases books.covered e.source n node with waiting | entered
    · rw [done] at waiting
      cases waiting
    · exact entered
  rcases books.listedOnce id e found entered with examined | ⟨frame, member, _⟩
  · exact examined
  · rw [idle] at member
    cases member

-- Members of a list without repeats that come in some order have positions in that order.
theorem index_lt_of_pair {l : List NodeId} (once : l.Nodup) {u v : NodeId} (pair : [u, v].Sublist l) :
    l.idxOf u < l.idxOf v := by
  have along : l.Pairwise fun a b => l.idxOf a < l.idxOf b := by
    rw [List.pairwise_iff_getElem]
    intro i j iBound jBound less
    rwa [once.idxOf_getElem i iBound, once.idxOf_getElem j jBound]
  exact List.pairwise_iff_forall_sublist.mp along pair

theorem kept_acyclic (g : Graph) (mirrored : g.Mirrored) (u : NodeId) :
    ¬Relation.TransGen (Kept g (search g)) u u := by
  obtain ⟨_, _, left, sorted⟩ := search_sorted g mirrored
  have further : ∀ u v, Relation.TransGen (Kept g (search g)) u v →
      (trail (search g) left).idxOf u < (trail (search g) left).idxOf v := by
    intro u v way
    induction way with
    | single step => exact index_lt_of_pair sorted.once (sorted.forward _ _ step)
    | tail _ step ih => exact Nat.lt_trans ih (index_lt_of_pair sorted.once (sorted.forward _ _ step))
  exact fun cycle => Nat.lt_irrefl _ (further u u cycle)

theorem marked_returns (g : Graph) (mirrored : g.Mirrored) (id : EdgeId) (marked : id ∈ (search g).marked) :
    ∃ e, g.edges.get? id = some e ∧ Returns g (search g) e.target e.source := by
  obtain ⟨_, _, _, sorted⟩ := search_sorted g mirrored
  exact sorted.returns id marked

end Search

open Search

-- A node with what a search tells about it.
def noted (g : Graph) (s : Search) (n : Node) : Node :=
  { n with
    visited := s.entered.contains n.id
    backedgesOut := (markedFrom g s n.id).length
    backedgesIn := (markedInto g s n.id).length }

-- A search tells the same about a node where the edges have the same ends.
theorem noted_same (g h : Graph) (s : Search)
    (ends : ∀ side, h.edges.map (fun e => e.endAt side) = g.edges.map fun e => e.endAt side) :
    noted h s = noted g s := by
  have count : ∀ side id, ((h.edgesOf s.marked).filter fun e => e.endAt side == id).length =
      ((g.edgesOf s.marked).filter fun e => e.endAt side == id).length := by
    intro side id
    have read : ∀ k : Graph, ((k.edgesOf s.marked).filter fun e => e.endAt side == id).length =
        (s.marked.filterMap (k.edges.map fun e => e.endAt side).get?).countP (· == id) := by
      intro k
      have ofEnds : s.marked.filterMap (k.edges.map fun e => e.endAt side).get? =
          (k.edgesOf s.marked).map fun e => e.endAt side := by
        rw [Graph.edgesOf, List.map_filterMap]
        exact List.filterMap_congr fun marked _ => Table.get_map _ k.edges marked
      rw [ofEnds, List.countP_map, List.countP_eq_length_filter]
      rfl
    rw [read, read, ends]
  funext n
  have out : (markedFrom h s n.id).length = (markedFrom g s n.id).length := count .source n.id
  have into : (markedInto h s n.id).length = (markedInto g s n.id).length := count .target n.id
  rw [noted, noted, out, into]

theorem get_annotate_node (g : Graph) (s : Search) (key : NodeId) :
    (annotate g s).nodes.get? key = (g.nodes.get? key).map (noted g s) := Table.get_map _ g.nodes key

theorem get_annotate_edge (g : Graph) (s : Search) (mirrored : g.Mirrored) (id : EdgeId) :
    (annotate g s).edges.get? id =
      (g.edges.get? id).map fun e => { e with backedge := s.marked.contains id } := by
  refine (Table.get_map _ g.edges id).trans ?_
  cases found : g.edges.get? id with
  | none => rfl
  | some e => rw [Option.map_some, Option.map_some, mirrored.edgeKeys id e found]

theorem forward_annotate (g : Graph) (mirrored : g.Mirrored) (u v : NodeId) :
    (annotate g (search g)).Forward u v ↔ Kept g (search g) u v := by
  constructor
  · rintro ⟨id, e, found, unmarked, source, target⟩
    rw [get_annotate_edge g (search g) mirrored] at found
    obtain ⟨old, oldFound, rfl⟩ := Option.map_eq_some_iff.mp found
    exact ⟨id, old, oldFound, search_examined g mirrored id old oldFound, by simpa using unmarked, source, target⟩
  · rintro ⟨id, e, found, _, unmarked, source, target⟩
    exact ⟨id, { e with backedge := (search g).marked.contains id },
      by rw [get_annotate_edge g (search g) mirrored, found]; rfl, by simpa using unmarked, source, target⟩

theorem pass_run (g : Graph) (mirrored : g.Mirrored) :
    pass.run g = .ok (!(search g).marked.isEmpty) (annotate g (search g)) := by
  have found := (search_sorted g mirrored).1.found
  simp only [pass, EStateM.run_bind, EStateM.run_get, EStateM.run_set, found, EStateM.run_pure]

theorem unmark_forward (g : Graph) (id : EdgeId) (u v : NodeId) (forward : g.Forward u v) :
    (g.unmark id).Forward u v := by
  obtain ⟨other, e, found, plain, source, target⟩ := forward
  have read : (g.unmark id).edges.get? other =
      if other = id then (g.edges.get? other).map fun e => { e with backedge := false }
      else g.edges.get? other := Table.get_modify g.edges id other _
  refine ⟨other, { e with backedge := false }, ?_, rfl, source, target⟩
  rw [read, found]
  have same : { e with backedge := false } = e := by rw [← plain]
  split
  · rfl
  · rw [same]

theorem unmark_self (g : Graph) (id : EdgeId) (e : Edge) (found : g.edges.get? id = some e) :
    (g.unmark id).Forward e.source e.target := by
  refine ⟨id, { e with backedge := false }, ?_, rfl, rfl, rfl⟩
  exact (Table.get_modify g.edges id id _).trans (by rw [if_pos rfl, found]; rfl)

theorem linked_of_kept (g : Graph) (s : Search) (u v : NodeId) (kept : Kept g s u v) : g.Linked u v := by
  obtain ⟨id, e, found, _, _, source, target⟩ := kept
  exact ⟨id, e, found, source, target⟩

theorem marked_way (g : Graph) (mirrored : g.Mirrored) (id : EdgeId) (e : Edge)
    (found : g.edges.get? id = some e) (marked : id ∈ (search g).marked) :
    Relation.ReflTransGen (Kept g (search g)) e.target e.source := by
  obtain ⟨other, sameFound, _, _, _, way⟩ := marked_returns g mirrored id marked
  cases Option.some.inj (found.symm.trans sameFound)
  exact Relation.ReflTransGen.mono (fun _ _ step => step.1) _ _ way

theorem marked_iff_cycle (g : Graph) (mirrored : g.Mirrored) :
    (search g).marked ≠ [] ↔ ∃ u, Relation.TransGen g.Linked u u := by
  constructor
  · intro filled
    obtain ⟨id, marked⟩ := List.exists_mem_of_ne_nil _ filled
    obtain ⟨e, found, _⟩ := marked_returns g mirrored id marked
    have way := Relation.ReflTransGen.mono (linked_of_kept g (search g)) _ _
      (marked_way g mirrored id e found marked)
    exact ⟨e.source, Relation.TransGen.head' ⟨id, e, found, rfl, rfl⟩ way⟩
  · rintro ⟨u, cycle⟩ nothing
    refine kept_acyclic g mirrored u (Relation.TransGen.mono ?_ u u cycle)
    rintro a b ⟨id, e, found, source, target⟩
    exact ⟨id, e, found, search_examined g mirrored id e found, by simp [nothing], source, target⟩

-- Every directed cycle has a marked edge, every marked edge alone closes a cycle, and nothing else
-- about the edges changes.
theorem breaks_every_cycle (g : Graph) (mirrored : g.Mirrored) :
    ∃ found broken, pass.run g = .ok found broken ∧
      (∀ id, ((broken.unmark id).edges.get? id) = ((g.unmark id).edges.get? id)) ∧
      (∀ u, ¬Relation.TransGen broken.Forward u u) ∧
      (∀ id e, broken.edges.get? id = some e → e.backedge = true →
        Relation.ReflTransGen broken.Forward e.target e.source ∧
          Relation.TransGen (broken.unmark id).Forward e.source e.source) ∧
      (found = true ↔ ∃ u, Relation.TransGen g.Linked u u) := by
  have same : (annotate g (search g)).Forward = Kept g (search g) := by
    funext u v
    exact propext (forward_annotate g mirrored u v)
  have edges := get_annotate_edge g (search g) mirrored
  refine ⟨_, _, pass_run g mirrored, ?_, ?_, ?_, ?_⟩
  · intro id
    refine (Table.get_modify _ id id _).trans (Eq.trans ?_ (Table.get_modify _ id id _).symm)
    rw [if_pos rfl, if_pos rfl, edges, Option.map_map]
    rfl
  · exact same ▸ kept_acyclic g mirrored
  · intro id marked found flagged
    rw [edges] at found
    obtain ⟨e, old, rfl⟩ := Option.map_eq_some_iff.mp found
    have way := marked_way g mirrored id e old (by simpa using flagged)
    rw [← same] at way
    have closing := unmark_self _ id _ (by rw [edges, old]; rfl)
    exact ⟨way, Relation.TransGen.head' closing (Relation.ReflTransGen.mono (unmark_forward _ id) _ _ way)⟩
  · rw [← marked_iff_cycle g mirrored]
    simp

-- Two nodes that feed each other, the second one also itself.
def twist : Graph :=
  let first := ((Graph.new 0).withFresh).insertValueNode (Node.instruction 1 0 "add")
  let nodes := first.withFresh.insertValueNode (Node.instruction 2 1 "phi")
  Edit.attach (Edit.attach (Edit.attach nodes 1 2 .data 1.0) 2 1 .data 1.0) 2 2 .data 1.0

theorem twist_well_formed : twist.WellFormed := by
  have bare : ∀ id value label, Graph.Bare (Node.instruction id value label) := by
    intro id value label side
    cases side <;> rfl
  have first := Graph.insert_value_node_well_formed (Graph.new 0) (Node.instruction 1 0 "add")
    (Graph.new_well_formed 0) rfl rfl (bare 1 0 "add")
  have nodes := Graph.insert_value_node_well_formed _ (Node.instruction 2 1 "phi") first rfl rfl
    (bare 2 1 "phi")
  have forth := Graph.attach_well_formed _ 1 2 .data 1.0 nodes ⟨_, rfl⟩ ⟨_, rfl⟩
  have back := Graph.attach_well_formed _ 2 1 .data 1.0 forth ⟨_, rfl⟩ ⟨_, rfl⟩
  exact Graph.attach_well_formed _ 2 2 .data 1.0 back ⟨_, rfl⟩ ⟨_, rfl⟩

theorem breaks_twist :
    twist.Mirrored ∧ ∃ broken, pass.run twist = .ok true broken ∧
      ∀ u, ¬Relation.TransGen broken.Forward u u := by
  have mirrored := twist_well_formed.mirrored
  obtain ⟨found, broken, run, _, acyclic, _, cyclic⟩ := breaks_every_cycle twist mirrored
  have here : found = true := cyclic.mpr ⟨2, .single ⟨3, _, rfl, rfl, rfl⟩⟩
  exact ⟨mirrored, broken, here ▸ run, acyclic⟩

end Backedges

end LoopDeps
