import Mathlib.Logic.Function.Iterate
import LoopDeps.Proofs.Graph.CycleBreaking
import LoopDeps.Proofs.Graph.Rewiring
set_option autoImplicit false

/- The search as a recursion. What is left to do for a stack of frames is to follow the edges that each frame still
   has, those of the innermost frame first, and no round of the loop changes what comes of that. -/
namespace LoopDeps

-- No edge is listed twice among all listings of one kind.
theorem Graph.listings_once (g : Graph) (mirrored : g.Mirrored) (side : End) :
    (g.nodes.values.flatMap fun n => n.listing side).Nodup := by
  have node : ∀ entry ∈ g.nodes.entries, g.nodes.get? entry.1 = some entry.2 := fun _ member =>
    Table.get_eq_some.mpr member
  rw [Table.values, List.flatMap_map, List.nodup_flatMap]
  refine ⟨fun entry member => listing_nodup g mirrored side entry.1 entry.2 (node entry member), ?_⟩
  refine g.nodes.increasing.imp_of_mem fun {a b} first second less id here there => ?_
  obtain ⟨e, found, source⟩ := mirrored.recorded side a.1 a.2 id (node a first) here
  obtain ⟨other, again, elsewhere⟩ := mirrored.recorded side b.1 b.2 id (node b second) there
  cases Option.some.inj (found.symm.trans again)
  exact Nat.ne_of_lt less (source.symm.trans elsewhere)

namespace Backedges

-- What a search has entered, looked at and marked, each in its order.
structure Tour where
  entered : List NodeId
  examined : List EdgeId
  marked : List EdgeId
deriving DecidableEq, Repr

namespace Tour

def nothing : Tour := ⟨[], [], []⟩

def enter (t : Tour) (id : NodeId) : Tour := { t with entered := t.entered ++ [id] }

def look (t : Tour) (id : EdgeId) : Tour := { t with examined := t.examined ++ [id] }

def mark (t : Tour) (id : EdgeId) : Tour := { t with marked := t.marked ++ [id] }

def offPath (g : Graph) (path : List NodeId) : List NodeId := g.nodes.keys.filter fun id => id ∉ path

theorem off_path_less (g : Graph) (path : List NodeId) (id : NodeId) (n : Node) (node : g.nodes.get? id = some n)
    (new : id ∉ path) : (offPath g (id :: path)).length < (offPath g path).length := by
  have smaller : offPath g (id :: path) = (offPath g path).filter (· ≠ id) := by
    simp [offPath, List.filter_filter]
  have member : id ∈ offPath g path :=
    List.mem_filter.mpr ⟨Table.mem_keys.mpr (by rw [node]; rfl), by simpa using new⟩
  rw [smaller]
  exact List.length_filter_lt_length_iff_exists.mpr ⟨id, member, by simp⟩

-- Follows edges out of the innermost node of a path, and each one that leads to a new node on from there. An edge
-- that leads back to the path is marked. A path takes each node once, so the recursion is no deeper than there are
-- nodes.
def follow (g : Graph) (path : List NodeId) (t : Tour) : List EdgeId → Tour
  | [] => t
  | id :: rest =>
      match g.edges.get? id with
      | none => follow g path (t.look id) rest
      | some e =>
          if _onPath : e.target ∈ path then follow g path ((t.look id).mark id) rest
          else if e.target ∈ t.entered then follow g path (t.look id) rest
          else match _node : g.nodes.get? e.target with
            | none => follow g path (t.look id) rest
            | some n =>
                let inner := follow g (e.target :: path) ((t.look id).enter e.target) n.outgoing
                follow g path inner rest
termination_by ids => ((offPath g path).length, ids.length)
decreasing_by
  · exact .right _ (Nat.lt_succ_self _)
  · exact .right _ (Nat.lt_succ_self _)
  · exact .right _ (Nat.lt_succ_self _)
  · exact .right _ (Nat.lt_succ_self _)
  · exact .left _ _ (off_path_less g path e.target n _node _onPath)
  · exact .right _ (Nat.lt_succ_self _)

theorem follow_new (g : Graph) (path : List NodeId) (t : Tour) (id : EdgeId) (rest : List EdgeId) (e : Edge) (n : Node)
    (edge : g.edges.get? id = some e) (offPath : e.target ∉ path) (new : e.target ∉ t.entered)
    (node : g.nodes.get? e.target = some n) :
    follow g path t (id :: rest) =
      follow g path (follow g (e.target :: path) ((t.look id).enter e.target) n.outgoing) rest := by
  rw [follow]
  simp only [edge, offPath, new, dite_false, if_false]
  split
  · rename_i absent
    rw [node] at absent
    cases absent
  · rename_i m found
    rw [node] at found
    cases found
    rfl

def fromRoot (g : Graph) (t : Tour) (root : NodeId) : Tour :=
  if root ∈ t.entered then t
  else match g.nodes.get? root with
    | none => t
    | some n => follow g [root] (t.enter root) n.outgoing

-- The recursive search from every node not yet entered, in id order.
def ofGraph (g : Graph) : Tour := g.nodes.keys.foldl (fromRoot g) nothing

def ofSearch (s : Search) : Tour := ⟨s.entered, s.examined, s.marked⟩

-- Goes on with the edges that the frames still have.
def finish (g : Graph) : List Frame → Tour → Tour
  | [], t => t
  | frame :: below, t => finish g below (follow g (frame.node :: below.map Frame.node) t frame.pending)

-- What comes of a search under way.
def outlook (g : Graph) (s : Search) : Tour := s.roots.foldl (fromRoot g) (finish g s.stack (ofSearch s))

theorem outlook_event (g : Graph) (s next : Search) (books : Search.Books g s) (event : Search.Event g s next) :
    outlook g next = outlook g s := by
  cases event with
  | skip root rest idle waiting known =>
      simp only [outlook, idle, waiting, List.foldl_cons, finish, fromRoot, ofSearch, known, if_true]
  | start root rest n idle waiting new node =>
      simp only [outlook, idle, waiting, List.foldl_cons, finish, fromRoot, ofSearch, new, if_false, node,
        List.map_nil, enter]
  | leave top below done => simp only [outlook, done, finish, follow, ofSearch]
  | mark id e pending below busy edge onPath =>
      have here : e.target ∈ e.source :: below.map Frame.node := by simpa [Search.path, busy] using onPath
      simp only [outlook, busy, finish, follow, edge, here, dite_true, ofSearch, look, Tour.mark]
  | pass id e pending below busy edge known offPath =>
      have away : e.target ∉ e.source :: below.map Frame.node := by simpa [Search.path, busy] using offPath
      simp only [outlook, busy, finish, follow, edge, away, known, dite_false, if_true, ofSearch, look]
  | descend id e n pending below busy edge new node =>
      have away : e.target ∉ e.source :: below.map Frame.node := fun onPath =>
        new (Search.path_entered g s books e.target (by simpa [Search.path, busy] using onPath))
      simp only [outlook, busy, finish]
      rw [follow_new g _ _ id pending e n edge away new node]
      rfl

theorem search_tour (g : Graph) (mirrored : g.Mirrored) : ofSearch (search g) = ofGraph g := by
  obtain ⟨_, same, idle, done⟩ := Search.search_invariant g mirrored (fun s => outlook g s = ofGraph g) rfl
    fun s next books before event => (outlook_event g s next books event).trans before
  rwa [outlook, idle, done] at same

end Tour

namespace Search

-- The loop goes round once for each step that remains, and then it is at its end.
theorem run_rounds (g : Graph) (mirrored : g.Mirrored) (rounds : Nat) (s : Search) (books : Books g s)
    (left : remaining g s = rounds) :
    run g rounds s = (step g)^[rounds] s ∧ ((step g)^[rounds] s).finished = true ∧
      ∀ k < rounds, ((step g)^[k] s).finished = false := by
  induction rounds generalizing s with
  | zero => exact ⟨rfl, (finished_iff g s books).mpr left, fun k less => absurd less (Nat.not_lt_zero k)⟩
  | succ rounds ih =>
      have running : s.finished = false := by
        rw [← Bool.not_eq_true, finished_iff g s books, left]
        exact Nat.succ_ne_zero rounds
      have event := step_event g s mirrored books running
      have shorter := remaining_event g s _ event
      obtain ⟨same, ended, before⟩ := ih (s.step g) (books_event g s _ mirrored books event) (by omega)
      refine ⟨?_, ended, ?_⟩
      · rw [run, running]
        exact same
      · intro k less
        cases k with
        | zero => exact running
        | succ k => exact before k (Nat.lt_of_succ_lt_succ less)

theorem entered_nodes (g : Graph) (mirrored : g.Mirrored) :
    ∀ id ∈ (search g).entered, ∃ n, g.nodes.get? id = some n := by
  refine (search_invariant g mirrored (fun s => ∀ id ∈ s.entered, ∃ n, g.nodes.get? id = some n)
    (fun _ member => absurd member List.not_mem_nil) ?_).2.1
  intro s next _ nodes event
  have more : ∀ root n, g.nodes.get? root = some n → ∀ id ∈ s.entered ++ [root], ∃ n, g.nodes.get? id = some n := by
    intro root n node id member
    rcases List.mem_append.mp member with before | last
    · exact nodes id before
    · exact ⟨n, List.mem_singleton.mp last ▸ node⟩
  cases event with
  | skip | leave | mark | pass => exact nodes
  | start root _ n _ _ _ node => exact more root n node
  | descend _ e n _ _ _ _ _ node => exact more e.target n node

theorem entered_perm (g : Graph) (mirrored : g.Mirrored) : (search g).entered.Perm g.nodes.keys := by
  obtain ⟨books, _, _, done⟩ := search_invariant g mirrored (fun _ => True) trivial fun _ _ _ _ _ => trivial
  refine (List.perm_ext_iff_of_nodup books.enteredOnce g.nodes.keys_nodup).mpr fun id => ?_
  rw [Table.mem_keys, Option.isSome_iff_exists]
  constructor
  · exact entered_nodes g mirrored id
  · rintro ⟨n, node⟩
    exact (books.covered id n node).resolve_left (by simp [done])

theorem examined_perm (g : Graph) (mirrored : g.Mirrored) :
    (search g).examined.Perm (g.nodes.values.flatMap Node.outgoing) := by
  obtain ⟨books, _, _, _⟩ := search_invariant g mirrored (fun _ => True) trivial fun _ _ _ _ _ => trivial
  have source : ∀ key n, g.nodes.get? key = some n → ∀ id ∈ n.outgoing, ∃ e, g.edges.get? id = some e ∧ e.source = key :=
    fun key n node id listed => mirrored.recorded .source key n id node listed
  refine (List.perm_ext_iff_of_nodup (examined_once g mirrored).1 (g.listings_once mirrored .source)).mpr fun id => ?_
  rw [List.mem_flatMap]
  constructor
  · intro examined
    obtain ⟨e, edge, _⟩ := books.examinedEdges id examined
    obtain ⟨n, node, once⟩ := mirrored.listed .source id e edge
    exact ⟨n, Table.mem_values.mpr ⟨_, node⟩, List.count_pos_iff.mp (Nat.lt_of_lt_of_eq Nat.zero_lt_one once.symm)⟩
  · rintro ⟨n, member, listed⟩
    obtain ⟨key, node⟩ := Table.mem_values.mp member
    obtain ⟨e, edge, _⟩ := source key n node id listed
    exact search_examined g mirrored id e edge

end Search

open Search

-- The loop ends, two rounds for each node and one for each edge listed, and marks what the recursion marks.
theorem loop_recurses (g : Graph) (mirrored : g.Mirrored) :
    let tour := Tour.ofGraph g
    let round := fun k => (step g)^[k] (start g)
    ((round (stepBound g)).finished = true ∧ ∀ k < stepBound g, (round k).finished = false) ∧
      Tour.ofSearch (round (stepBound g)) = tour ∧
      tour.entered.Perm g.nodes.keys ∧ tour.examined.Perm (g.nodes.values.flatMap Node.outgoing) ∧
      ∃ found broken, pass.run g = .ok found broken ∧ (found = true ↔ tour.marked ≠ []) ∧
        ∀ id, id ∈ tour.marked ↔ ∃ e, broken.edges.get? id = some e ∧ e.backedge = true := by
  obtain ⟨same, ended, before⟩ := run_rounds g mirrored (stepBound g) (start g) (books_start g) (remaining_start g)
  have tour := Tour.search_tour g mirrored
  dsimp only
  rw [← same, ← tour]
  refine ⟨⟨same ▸ ended, before⟩, rfl, entered_perm g mirrored, examined_perm g mirrored, _, _, pass_run g mirrored,
    by simp [Tour.ofSearch], fun id => ?_⟩
  rw [get_annotate_edge g (search g) mirrored]
  constructor
  · intro marked
    obtain ⟨e, found, _⟩ := marked_returns g mirrored id marked
    exact ⟨_, by rw [found]; rfl, List.contains_iff_mem.mpr marked⟩
  · rintro ⟨e, found, flagged⟩
    obtain ⟨old, _, rfl⟩ := Option.map_eq_some_iff.mp found
    exact List.contains_iff_mem.mp flagged

-- Of the three edges between two nodes, the recursion meets the second and the third from inside.
theorem twist_recurses :
    twist.Mirrored ∧ (Tour.ofGraph twist).marked = [2, 3] ∧ stepBound twist = 7 ∧
      ((step twist)^[7] (start twist)).finished = true ∧
      ∃ broken, pass.run twist = .ok true broken ∧
        ∀ id, id ∈ [2, 3] ↔ ∃ e, broken.edges.get? id = some e ∧ e.backedge = true := by
  have mirrored := twist_well_formed.mirrored
  have marked : (Tour.ofGraph twist).marked = [2, 3] := by
    rw [← Tour.search_tour twist mirrored]
    decide
  obtain ⟨⟨ended, _⟩, _, _, _, found, broken, ran, foundIff, marks⟩ := loop_recurses twist mirrored
  rw [marked] at foundIff marks
  have here : found = true := foundIff.mpr (by simp)
  exact ⟨mirrored, marked, by decide, ended, broken, here ▸ ran, marks⟩

end Backedges

end LoopDeps
