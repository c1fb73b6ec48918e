import Mathlib.Algebra.BigOperators.Group.List.Basic
import Mathlib.Algebra.GroupWithZero.Nat
import Mathlib.Data.List.Nodup
import LoopDeps.Proofs.Graph.WellFormed
set_option autoImplicit false

/- The depth-first search as a sequence of events. In a mirrored graph each step before the end is one
   of six events, no lookup fails, and the bound on the steps is never short. -/
namespace LoopDeps.Backedges

namespace Search

-- The nodes from the one being looked at back to the root.
def path (s : Search) : List NodeId := s.stack.map Frame.node

-- All that a step can do.
inductive Event (g : Graph) (s : Search) : Search → Prop where
  | skip (root : NodeId) (rest : List NodeId) (idle : s.stack = []) (next : s.roots = root :: rest)
      (known : root ∈ s.entered) : Event g s { s with roots := rest }
  | start (root : NodeId) (rest : List NodeId) (n : Node) (idle : s.stack = [])
      (next : s.roots = root :: rest) (new : root ∉ s.entered) (node : g.nodes.get? root = some n) :
      Event g s
        { s with roots := rest, stack := [⟨root, n.outgoing⟩], entered := s.entered ++ [root] }
  | leave (top : NodeId) (below : List Frame) (done : s.stack = ⟨top, []⟩ :: below) :
      Event g s { s with stack := below }
  | mark (id : EdgeId) (e : Edge) (pending : List EdgeId) (below : List Frame)
      (next : s.stack = ⟨e.source, id :: pending⟩ :: below) (edge : g.edges.get? id = some e)
      (onPath : e.target ∈ s.path) :
      Event g s
        { s with
          stack := ⟨e.source, pending⟩ :: below
          examined := s.examined ++ [id]
          marked := s.marked ++ [id] }
  | pass (id : EdgeId) (e : Edge) (pending : List EdgeId) (below : List Frame)
      (next : s.stack = ⟨e.source, id :: pending⟩ :: below) (edge : g.edges.get? id = some e)
      (known : e.target ∈ s.entered) (offPath : e.target ∉ s.path) :
      Event g s { s with stack := ⟨e.source, pending⟩ :: below, examined := s.examined ++ [id] }
  | descend (id : EdgeId) (e : Edge) (n : Node) (pending : List EdgeId) (below : List Frame)
      (next : s.stack = ⟨e.source, id :: pending⟩ :: below) (edge : g.edges.get? id = some e)
      (new : e.target ∉ s.entered) (node : g.nodes.get? e.target = some n) :
      Event g s
        { s with
          stack := ⟨e.target, n.outgoing⟩ :: ⟨e.source, pending⟩ :: below
          entered := s.entered ++ [e.target]
          examined := s.examined ++ [id] }

-- What the search has entered, what it has examined, and what is still to come.
structure Books (g : Graph) (s : Search) : Prop where
  found : s.missing = none
  covered : ∀ id n, g.nodes.get? id = some n → id ∈ s.roots ∨ id ∈ s.entered
  rootNodes : ∀ id ∈ s.roots, ∃ n, g.nodes.get? id = some n
  enteredOnce : s.entered.Nodup
  -- The path lists its nodes in the order they were entered in, the last one first.
  order : s.path.reverse.Sublist s.entered
  frames : ∀ frame ∈ s.stack, ∃ n done, g.nodes.get? frame.node = some n ∧
    n.outgoing = done ++ frame.pending
  examinedEdges : ∀ id ∈ s.examined, ∃ e, g.edges.get? id = some e ∧ e.source ∈ s.entered
  pendingNew : ∀ frame ∈ s.stack, ∀ id ∈ frame.pending, id ∉ s.examined
  listedOnce : ∀ id e, g.edges.get? id = some e → e.source ∈ s.entered →
    id ∈ s.examined ∨ ∃ frame ∈ s.stack, frame.node = e.source ∧ id ∈ frame.pending
  markedExamined : ∀ id ∈ s.marked, id ∈ s.examined

theorem books_start (g : Graph) : Books g (start g) := by
  refine ⟨rfl, ?_, ?_, List.nodup_nil, by simp [path, start], ?_, ?_, ?_, ?_, ?_⟩
  · intro id n node
    exact Or.inl (Table.mem_keys.mpr (by rw [node]; rfl))
  · intro id member
    exact Option.isSome_iff_exists.mp (Table.mem_keys.mp member)
  all_goals simp [start]

theorem on_stack_iff (s : Search) (id : NodeId) : s.onStack id = true ↔ id ∈ s.path := by
  simp only [onStack, path, List.any_eq_true, beq_iff_eq, List.mem_map]

theorem path_entered (g : Graph) (s : Search) (books : Books g s) (id : NodeId) (member : id ∈ s.path) :
    id ∈ s.entered :=
  books.order.subset (List.mem_reverse.mpr member)

theorem path_once (g : Graph) (s : Search) (books : Books g s) : s.path.Nodup :=
  List.nodup_reverse.mp (books.order.nodup books.enteredOnce)

theorem waiting_edge (g : Graph) (s : Search) (mirrored : g.Mirrored) (books : Books g s) (frame : Frame)
    (member : frame ∈ s.stack) (id : EdgeId) (waiting : id ∈ frame.pending) :
    ∃ e, g.edges.get? id = some e ∧ e.source = frame.node := by
  obtain ⟨n, done, node, listing⟩ := books.frames frame member
  exact mirrored.recorded .source frame.node n id node (by simp [Node.listing, listing, waiting])

-- Nothing else on the stack waits for the edge that comes next.
theorem waiting_once (g : Graph) (s : Search) (mirrored : g.Mirrored) (books : Books g s) (top : NodeId)
    (id : EdgeId) (pending : List EdgeId) (below : List Frame) (busy : s.stack = ⟨top, id :: pending⟩ :: below) :
    id ∉ pending ∧ ∀ frame ∈ below, id ∉ frame.pending := by
  have onTop : (⟨top, id :: pending⟩ : Frame) ∈ s.stack := busy ▸ List.mem_cons_self
  obtain ⟨e, edge, source⟩ := waiting_edge g s mirrored books _ onTop id List.mem_cons_self
  constructor
  · obtain ⟨n, done, node, listing⟩ := books.frames _ onTop
    obtain ⟨m, found, once⟩ := mirrored.listed .source id e edge
    have found : g.nodes.get? e.source = some m := found
    rw [source, node] at found
    cases found
    have once : (done ++ id :: pending).count id = 1 := listing ▸ once
    rw [List.count_append, List.count_cons_self] at once
    exact List.count_eq_zero.mp (by omega)
  · intro frame member waiting
    obtain ⟨other, same, there⟩ :=
      waiting_edge g s mirrored books frame (busy ▸ List.mem_cons_of_mem _ member) id waiting
    cases Option.some.inj (edge.symm.trans same)
    have once : (top :: below.map Frame.node).Nodup := by simpa [path, busy] using path_once g s books
    exact (List.nodup_cons.mp once).1 (List.mem_map.mpr ⟨frame, member, there.symm.trans source⟩)

theorem step_idle (g : Graph) (s : Search) (books : Books g s) (idle : s.stack = [])
    (open_ : s.finished = false) : Event g s (s.step g) := by
  cases next : s.roots with
  | nil => simp [finished, idle, next] at open_
  | cons root rest =>
      obtain ⟨n, node⟩ := books.rootNodes root (by simp [next])
      by_cases known : root ∈ s.entered
      · have same : s.step g = { s with roots := rest } := by
          simp only [step, idle, next, List.contains_iff_mem, known, if_true]
        rw [same]
        exact .skip root rest idle next known
      · have same : s.step g =
            { s with roots := rest, stack := [⟨root, n.outgoing⟩], entered := s.entered ++ [root] } := by
          simp only [step, enter, idle, next, List.contains_iff_mem, known, if_false, node]
        rw [same]
        exact .start root rest n idle next known node

theorem step_busy (g : Graph) (s : Search) (mirrored : g.Mirrored) (books : Books g s) (top : Frame)
    (below : List Frame) (busy : s.stack = top :: below) : Event g s (s.step g) := by
  obtain ⟨node, pending⟩ := top
  cases pending with
  | nil =>
      have same : s.step g = { s with stack := below } := by simp only [step, busy]
      rw [same]
      exact .leave node below busy
  | cons id pending =>
      obtain ⟨e, edge, there⟩ :=
        waiting_edge g s mirrored books ⟨node, id :: pending⟩ (by simp [busy]) id List.mem_cons_self
      obtain ⟨m, target, _⟩ := mirrored.listed .target id e edge
      have unmarked : id ∉ s.marked := fun marked =>
        books.pendingNew ⟨node, id :: pending⟩ (by simp [busy]) id (by simp) (books.markedExamined id marked)
      cases there
      have onStack : ({ s with
          stack := ⟨e.source, pending⟩ :: below
          examined := s.examined ++ [id] } : Search).onStack e.target = s.onStack e.target := by
        simp only [Search.onStack, busy, List.any_cons]
      have target : g.nodes.get? e.target = some m := target
      have first : s.step g = if s.onStack e.target then
            { s with
              stack := ⟨e.source, pending⟩ :: below
              examined := s.examined ++ [id]
              marked := s.marked ++ [id] }
          else if e.target ∈ s.entered then
            { s with stack := ⟨e.source, pending⟩ :: below, examined := s.examined ++ [id] }
          else
            { s with
              stack := ⟨e.target, m.outgoing⟩ :: ⟨e.source, pending⟩ :: below
              entered := s.entered ++ [e.target]
              examined := s.examined ++ [id] } := by
        simp only [step, busy, examine, enter, edge, onStack, List.contains_iff_mem, unmarked, if_false, target]
      rw [first]
      split
      · rename_i onPath
        exact .mark id e pending below busy edge ((on_stack_iff s e.target).mp onPath)
      · rename_i offPath
        rw [on_stack_iff] at offPath
        split
        · rename_i known
          exact .pass id e pending below busy edge known offPath
        · rename_i new
          exact .descend id e m pending below busy edge new target

theorem step_event (g : Graph) (s : Search) (mirrored : g.Mirrored) (books : Books g s)
    (running : s.finished = false) : Event g s (s.step g) := by
  cases state : s.stack with
  | nil => exact step_idle g s books state running
  | cons top below => exact step_busy g s mirrored books top below state

-- The changes of the books that the events are made of, one by one.
theorem books_root_done (g : Graph) (s : Search) (books : Books g s) (root : NodeId) (rest : List NodeId)
    (next : s.roots = root :: rest) (known : root ∈ s.entered) : Books g { s with roots := rest } := by
  refine { books with covered := ?_, rootNodes := ?_ }
  · intro id n node
    rcases books.covered id n node with waiting | entered
    · rcases List.mem_cons.mp (next ▸ waiting) with same | later
      · exact Or.inr (same ▸ known)
      · exact Or.inl later
    · exact Or.inr entered
  · intro id member
    exact books.rootNodes id (next ▸ List.mem_cons_of_mem root member)

theorem books_entered (g : Graph) (s : Search) (mirrored : g.Mirrored) (books : Books g s) (id : NodeId)
    (n : Node) (node : g.nodes.get? id = some n) (new : id ∉ s.entered) :
    Books g { s with stack := ⟨id, n.outgoing⟩ :: s.stack, entered := s.entered ++ [id] } := by
  have listed : ∀ edge ∈ n.outgoing, ∃ e, g.edges.get? edge = some e ∧ e.source = id := fun edge member =>
    mirrored.recorded .source id n edge node member
  refine { books with covered := ?_, enteredOnce := ?_, order := ?_, frames := ?_, examinedEdges := ?_,
                      pendingNew := ?_, listedOnce := ?_ }
  · intro key m found
    exact (books.covered key m found).imp_right (List.mem_append_left [id])
  · refine List.nodup_append.mpr ⟨books.enteredOnce, by simp, ?_⟩
    intro key member last here same
    exact new (List.mem_singleton.mp here ▸ same ▸ member)
  · show (id :: s.path).reverse.Sublist (s.entered ++ [id])
    rw [List.reverse_cons]
    exact books.order.append (List.Sublist.refl [id])
  · intro frame member
    rcases List.mem_cons.mp member with rfl | below
    · exact ⟨n, [], node, rfl⟩
    · exact books.frames frame below
  · intro edge member
    obtain ⟨e, found, entered⟩ := books.examinedEdges edge member
    exact ⟨e, found, List.mem_append_left _ entered⟩
  · intro frame member edge waiting examined
    rcases List.mem_cons.mp member with rfl | below
    · obtain ⟨e, found, source⟩ := listed edge waiting
      obtain ⟨other, sameFound, entered⟩ := books.examinedEdges edge examined
      cases Option.some.inj (found.symm.trans sameFound)
      exact new (source ▸ entered)
    · exact books.pendingNew frame below edge waiting examined
  · intro edge e found entered
    rcases List.mem_append.mp entered with before | last
    · rcases books.listedOnce edge e found before with examined | ⟨frame, below, stands, waiting⟩
      · exact Or.inl examined
      · exact Or.inr ⟨frame, List.mem_cons_of_mem _ below, stands, waiting⟩
    · have source : e.source = id := List.mem_singleton.mp last
      obtain ⟨m, found_, once⟩ := mirrored.listed .source edge e found
      have here : g.nodes.get? e.source = some m := found_
      rw [source, node] at here
      cases here
      have member : edge ∈ n.outgoing := List.count_pos_iff.mp (Nat.lt_of_lt_of_eq Nat.zero_lt_one once.symm)
      exact Or.inr ⟨⟨id, n.outgoing⟩, List.mem_cons_self, source.symm, member⟩

theorem books_left (g : Graph) (s : Search) (books : Books g s) (top : NodeId) (below : List Frame)
    (done : s.stack = ⟨top, []⟩ :: below) : Books g { s with stack := below } := by
  have inside : ∀ frame ∈ below, frame ∈ s.stack := fun frame member =>
    done ▸ List.mem_cons_of_mem _ member
  refine { books with order := ?_, frames := ?_, pendingNew := ?_, listedOnce := ?_ }
  · have before : ((below.map Frame.node).reverse ++ [top]).Sublist s.entered := by
      simpa [path, done] using books.order
    exact (List.sublist_append_left _ _).trans before
  · exact fun frame member => books.frames frame (inside frame member)
  · exact fun frame member => books.pendingNew frame (inside frame member)
  · intro edge e found entered
    rcases books.listedOnce edge e found entered with examined | ⟨frame, member, stands, waiting⟩
    · exact Or.inl examined
    · rcases List.mem_cons.mp (done ▸ member) with rfl | later
      · cases waiting
      · exact Or.inr ⟨frame, later, stands, waiting⟩

theorem books_examined (g : Graph) (s : Search) (mirrored : g.Mirrored) (books : Books g s) (id : EdgeId)
    (e : Edge) (pending : List EdgeId) (below : List Frame)
    (next : s.stack = ⟨e.source, id :: pending⟩ :: below) (edge : g.edges.get? id = some e) :
    Books g { s with stack := ⟨e.source, pending⟩ :: below, examined := s.examined ++ [id] } := by
  have top : (⟨e.source, id :: pending⟩ : Frame) ∈ s.stack := next ▸ List.mem_cons_self
  have inside : ∀ frame ∈ below, frame ∈ s.stack := fun frame member =>
    next ▸ List.mem_cons_of_mem _ member
  have samePath : (e.source :: below.map Frame.node) = s.path := by simp [path, next]
  obtain ⟨n, done, node, listing⟩ := books.frames _ top
  have entered : e.source ∈ s.entered :=
    path_entered g s books e.source (samePath ▸ List.mem_cons_self)
  obtain ⟨once, nowhereElse⟩ := waiting_once g s mirrored books e.source id pending below next
  refine { books with order := ?_, frames := ?_, examinedEdges := ?_, pendingNew := ?_, listedOnce := ?_,
                      markedExamined := ?_ }
  · show (e.source :: below.map Frame.node).reverse.Sublist s.entered
    exact samePath ▸ books.order
  · intro frame member
    rcases List.mem_cons.mp member with rfl | later
    · exact ⟨n, done ++ [id], node, by rw [listing, List.append_assoc]; rfl⟩
    · exact books.frames frame (inside frame later)
  · intro other member
    rcases List.mem_append.mp member with before | last
    · exact books.examinedEdges other before
    · exact ⟨e, List.mem_singleton.mp last ▸ edge, entered⟩
  · intro frame member other waiting examined
    rcases List.mem_append.mp examined with before | last
    · rcases List.mem_cons.mp member with rfl | later
      · exact books.pendingNew _ top other (List.mem_cons_of_mem id waiting) before
      · exact books.pendingNew frame (inside frame later) other waiting before
    · cases List.mem_singleton.mp last
      rcases List.mem_cons.mp member with rfl | later
      · exact once waiting
      · exact nowhereElse frame later waiting
  · intro other o found sourceEntered
    rcases books.listedOnce other o found sourceEntered with examined | ⟨frame, member, stands, waiting⟩
    · exact Or.inl (List.mem_append_left _ examined)
    · rcases List.mem_cons.mp (next ▸ member) with rfl | later
      · rcases List.mem_cons.mp waiting with rfl | rest
        · exact Or.inl (List.mem_append_right _ List.mem_cons_self)
        · exact Or.inr ⟨⟨e.source, pending⟩, List.mem_cons_self, stands, rest⟩
      · exact Or.inr ⟨frame, List.mem_cons_of_mem _ later, stands, waiting⟩
  · intro other member
    exact List.mem_append_left _ (books.markedExamined other member)

theorem books_event (g : Graph) (s next : Search) (mirrored : g.Mirrored) (books : Books g s)
    (event : Event g s next) : Books g next := by
  cases event with
  | skip root rest _ waiting known => exact books_root_done g s books root rest waiting known
  | start root rest n idle waiting new node =>
      have entered := books_entered g s mirrored books root n node new
      have done := books_root_done g _ entered root rest waiting (by simp)
      simpa [idle] using done
  | leave top below done => exact books_left g s books top below done
  | mark id e pending below busy edge _ =>
      refine { books_examined g s mirrored books id e pending below busy edge with markedExamined := ?_ }
      intro other member
      rcases List.mem_append.mp member with before | last
      · exact List.mem_append_left _ (books.markedExamined other before)
      · exact List.mem_append_right _ last
  | pass id e pending below busy edge _ _ => exact books_examined g s mirrored books id e pending below busy edge
  | descend id e n pending below busy edge new node =>
      exact books_entered g _ mirrored (books_examined g s mirrored books id e pending below busy edge)
        e.target n node new

-- The steps that the nodes not yet entered are good for.
def load (entered : List NodeId) (entries : List (Nat × Node)) : Nat :=
  (entries.map fun entry => if entry.1 ∈ entered then 0 else entry.2.outgoing.length + 1).sum

-- The steps to the end.
def remaining (g : Graph) (s : Search) : Nat :=
  s.roots.length + (s.stack.map fun frame => frame.pending.length + 1).sum + load s.entered g.nodes.entries

theorem load_entered (entries : List (Nat × Node)) (entered : List NodeId) (id : NodeId) (n : Node)
    (ordered : Increasing entries) (member : (id, n) ∈ entries) (new : id ∉ entered) :
    load entered entries = n.outgoing.length + 1 + load (entered ++ [id]) entries := by
  induction entries with
  | nil => cases member
  | cons head tail ih =>
      have parts := List.pairwise_cons.mp ordered
      rcases List.mem_cons.mp member with rfl | later
      · have rest : load (entered ++ [id]) tail = load entered tail := by
          refine congrArg List.sum (List.map_congr_left fun entry inTail => ?_)
          have other : entry.1 ≠ id := Nat.ne_of_gt (parts.1 entry inTail)
          simp only [List.mem_append, List.mem_singleton, other, or_false]
        have known : id ∈ entered ++ [id] := List.mem_append_right _ List.mem_cons_self
        simp only [load, List.map_cons, List.sum_cons] at rest ⊢
        rw [rest, if_neg new, if_pos known, Nat.zero_add]
      · have other : head.1 ≠ id := Nat.ne_of_lt (parts.1 _ later)
        have rest := ih parts.2 later
        simp only [load, List.map_cons, List.sum_cons] at rest ⊢
        simp only [List.mem_append, List.mem_singleton, other, or_false, rest] at rest ⊢
        omega

theorem remaining_event (g : Graph) (s next : Search) (event : Event g s next) :
    remaining g s = remaining g next + 1 := by
  cases event with
  | skip root rest _ waiting _ =>
      simp only [remaining, waiting, List.length_cons]
      omega
  | start root rest n idle waiting new node =>
      have entering := load_entered g.nodes.entries s.entered root n g.nodes.increasing
        (Table.get_eq_some.mp node) new
      simp only [remaining, idle, waiting, entering, List.length_cons, List.map_cons, List.map_nil,
        List.sum_cons, List.sum_nil]
      omega
  | leave top below done =>
      simp only [remaining, done, List.map_cons, List.sum_cons, List.length_nil]
      omega
  | mark id e pending below busy _ _ | pass id e pending below busy _ _ _ =>
      simp only [remaining, busy, List.map_cons, List.sum_cons, List.length_cons]
      omega
  | descend id e n pending below busy _ new node =>
      have entering := load_entered g.nodes.entries s.entered e.target n g.nodes.increasing
        (Table.get_eq_some.mp node) new
      simp only [remaining, busy, entering, List.map_cons, List.sum_cons, List.length_cons]
      omega

theorem remaining_start (g : Graph) : remaining g (start g) = stepBound g := by
  have sum : ∀ entries : List (Nat × Node), load [] entries =
      entries.length + ((entries.map (·.2)).map fun n => n.outgoing.length).sum := by
    intro entries
    induction entries with
    | nil => rfl
    | cons head tail ih =>
        simp only [load, List.map_cons, List.sum_cons, List.length_cons] at ih ⊢
        simp only [List.not_mem_nil, if_false] at ih ⊢
        omega
  have keys : g.nodes.keys.length = g.size := List.length_map _
  have size : g.size = g.nodes.entries.length := rfl
  have values : g.nodes.values = g.nodes.entries.map (·.2) := rfl
  simp only [remaining, start, stepBound, sum, keys, List.length_flatMap, List.map_nil, List.sum_nil, values]
  omega

theorem finished_idle (g : Graph) (s : Search) (books : Books g s) : s.finished = true ↔ s.stack = [] ∧ s.roots = [] := by
  simp only [finished, books.found, Option.isSome_none, Bool.false_or, Bool.and_eq_true, List.isEmpty_iff]

theorem finished_iff (g : Graph) (s : Search) (books : Books g s) : s.finished = true ↔ remaining g s = 0 := by
  simp only [finished_idle g s books, remaining, Nat.add_eq_zero_iff, List.length_eq_zero_iff]
  constructor
  · rintro ⟨idle, done⟩
    refine ⟨⟨done, by rw [idle]; rfl⟩, ?_⟩
    -- Every node is entered, and good for no more rounds.
    refine List.sum_eq_zero fun rounds member => ?_
    obtain ⟨⟨id, n⟩, entry, rfl⟩ := List.mem_map.mp member
    rcases books.covered id n (Table.get_eq_some.mpr entry) with waiting | entered
    · rw [done] at waiting
      cases waiting
    · exact if_pos entered
  · rintro ⟨⟨done, rounds⟩, _⟩
    refine ⟨?_, done⟩
    cases busy : s.stack with
    | nil => rfl
    | cons frame below => simp [busy] at rounds

-- An invariant of the events holds at the end, and the end is reached.
theorem run_invariant (g : Graph) (mirrored : g.Mirrored) (invariant : Search → Prop)
    (kept : ∀ s next, Books g s → invariant s → Event g s next → invariant next) (fuel : Nat)
    (s : Search) (books : Books g s) (holds : invariant s) (enough : remaining g s ≤ fuel) :
    Books g (run g fuel s) ∧ invariant (run g fuel s) ∧ (run g fuel s).stack = [] ∧
      (run g fuel s).roots = [] := by
  induction fuel generalizing s with
  | zero =>
      have done := (finished_iff g s books).mpr (Nat.le_zero.mp enough)
      exact ⟨books, holds, (finished_idle g s books).mp done⟩
  | succ fuel ih =>
      rw [run]
      by_cases done : s.finished = true
      · rw [if_pos done]
        exact ⟨books, holds, (finished_idle g s books).mp done⟩
      · rw [if_neg done]
        have event := step_event g s mirrored books (Bool.eq_false_iff.mpr done)
        have shorter := remaining_event g s _ event
        exact ih (s.step g) (books_event g s _ mirrored books event) (kept s _ books holds event) (by omega)

theorem search_invariant (g : Graph) (mirrored : g.Mirrored) (invariant : Search → Prop)
    (initial : invariant (start g))
    (kept : ∀ s next, Books g s → invariant s → Event g s next → invariant next) :
    Books g (search g) ∧ invariant (search g) ∧ (search g).stack = [] ∧ (search g).roots = [] :=
  run_invariant g mirrored invariant kept (stepBound g) (start g) (books_start g) initial
    (Nat.le_of_eq (remaining_start g))

-- An edge is examined once, and marked as it is examined if at all.
theorem examined_once (g : Graph) (mirrored : g.Mirrored) :
    (search g).examined.Nodup ∧ (search g).marked.Sublist (search g).examined := by
  refine (search_invariant g mirrored (fun s => s.examined.Nodup ∧ s.marked.Sublist s.examined)
    ⟨List.nodup_nil, .slnil⟩ ?_).2.1
  rintro s next books ⟨once, sub⟩ event
  have looked : ∀ id pending top below, s.stack = ⟨top, id :: pending⟩ :: below → (s.examined ++ [id]).Nodup := by
    intro id pending top below busy
    have fresh := books.pendingNew ⟨top, id :: pending⟩ (busy ▸ List.mem_cons_self) id List.mem_cons_self
    exact List.Nodup.append once (List.nodup_singleton id) (by simpa using fresh)
  cases event with
  | skip | start | leave => exact ⟨once, sub⟩
  | mark id e pending below busy => exact ⟨looked id pending _ below busy, sub.append (List.Sublist.refl [id])⟩
  | pass id e pending below busy | descend id e n pending below busy =>
      exact ⟨looked id pending _ below busy, sub.trans (List.sublist_append_left _ _)⟩

section

variable (g h : Graph) (nodes : h.nodes.map Node.outgoing = g.nodes.map Node.outgoing)
  (edges : h.edges.map Edge.target = g.edges.map Edge.target)

include nodes

theorem enter_same (s : Search) (id : NodeId) : s.enter h id = s.enter g id := by
  have read : ∀ k : Graph, s.enter k id = (((k.nodes.map Node.outgoing).get? id).elim { s with missing := some id }
      fun pending => { s with stack := ⟨id, pending⟩ :: s.stack, entered := s.entered ++ [id] }) := by
    intro k
    rw [Table.get_map, enter]
    cases k.nodes.get? id <;> rfl
  rw [read, read, nodes]

theorem bound_same : stepBound h = stepBound g := by
  have read : ∀ k : Graph, stepBound k =
      2 * (k.nodes.map Node.outgoing).size + ((k.nodes.map Node.outgoing).values.flatten).length := by
    intro k
    rw [Table.size_map, stepBound, List.flatMap_def, Table.values, List.map_map, Table.values, Table.map, List.map_map]
    rfl
  rw [read, read, nodes]

include edges

theorem examine_same (s : Search) (id : EdgeId) : s.examine h id = s.examine g id := by
  have read : ∀ k : Graph, s.examine k id =
      let looked := { s with examined := s.examined ++ [id] }
      ((k.edges.map Edge.target).get? id).elim looked fun target =>
        if looked.marked.contains id then looked
        else if looked.onStack target then { looked with marked := looked.marked ++ [id] }
        else if looked.entered.contains target then looked
        else looked.enter k target := by
    intro k
    rw [Table.get_map, examine]
    cases k.edges.get? id <;> rfl
  rw [read, read, edges]
  simp only [enter_same g h nodes]

theorem step_same (s : Search) : s.step h = s.step g := by
  unfold step
  simp only [enter_same g h nodes, examine_same g h nodes edges]

theorem run_same (fuel : Nat) (s : Search) : run h fuel s = run g fuel s := by
  induction fuel generalizing s with
  | zero => rfl
  | succ fuel ih => rw [run, run, step_same g h nodes edges, ih]

-- A search reads which nodes there are, what each of them lists as outgoing, and where the edges lead.
theorem search_same : search h = search g := by
  have keys : ∀ k : Graph, k.nodes.keys = (k.nodes.map Node.outgoing).keys := by
    intro k
    rw [Table.keys, Table.keys, Table.map, List.map_map]
    rfl
  rw [search, search, run_same g h nodes edges, bound_same g h nodes, start, start, keys, nodes, ← keys]

end

end Search

end LoopDeps.Backedges
