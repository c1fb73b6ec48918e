import LoopDeps.Proofs.Graph.Tracing
import LoopDeps.Run.Nest
import LoopDeps.Text.Parse
set_option autoImplicit false

/- What may be cut. In a body whose instructions, phis apart, come after the ones they take values from, data
   edges into anything but a phi go upwards in a rank, so that every cycle needs an input of a phi or a
   control edge. Where those go on in the order of the body too, or back to the first node, only inputs of
   phis are cut. -/
namespace LoopDeps

namespace Body

-- What flows into an instruction, and is made in the body, is made earlier. Phis are free.
def Ordered (body : Body) : Prop :=
  ∀ before i after, body.instrs = before ++ i :: after → i.instr.kind ≠ .merge →
    ∀ operand ∈ i.instr.dataOperands, operand ∈ body.ids → operand ∈ before.map BodyInstr.id

def orderedFrom (ids : List ValueId) : List ValueId → List BodyInstr → Bool
  | _, [] => true
  | seen, i :: rest =>
      (i.instr.kind == .merge || i.instr.dataOperands.all fun operand => !ids.contains operand || seen.contains operand) &&
        orderedFrom ids (seen ++ [i.id]) rest

theorem ordered_from_iff (ids : List ValueId) (seen : List ValueId) (instrs : List BodyInstr) :
    orderedFrom ids seen instrs = true ↔
      ∀ before i after, instrs = before ++ i :: after → i.instr.kind ≠ .merge →
        ∀ operand ∈ i.instr.dataOperands, operand ∈ ids → operand ∈ seen ++ before.map BodyInstr.id := by
  induction instrs generalizing seen with
  | nil => simp [orderedFrom]
  | cons first rest ih =>
      rw [orderedFrom, Bool.and_eq_true, ih]
      constructor
      · rintro ⟨here, later⟩ before i after split notPhi operand flows made
        cases before with
        | nil =>
            obtain ⟨rfl, rfl⟩ := List.cons.inj split
            simp only [Bool.or_eq_true, beq_iff_eq, notPhi, false_or, List.all_eq_true, Bool.not_eq_true',
              List.contains_eq_mem, decide_eq_false_iff_not, decide_eq_true_eq] at here
            simpa using (here operand flows).resolve_left (not_not.mpr made)
        | cons head before =>
            obtain ⟨rfl, tails⟩ := List.cons.inj split
            simpa using later before i after tails notPhi operand flows made
      · intro all
        refine ⟨?_, fun before i after split notPhi operand flows made => ?_⟩
        · by_cases phi : first.instr.kind = .merge
          · simp [phi]
          · have here := all [] first rest rfl phi
            simp only [Bool.or_eq_true, List.all_eq_true, Bool.not_eq_true', List.contains_eq_mem,
              decide_eq_false_iff_not, decide_eq_true_eq]
            refine Or.inr fun operand flows => ?_
            by_cases made : operand ∈ ids
            · exact Or.inr (by simpa using here operand flows made)
            · exact Or.inl made
        · simpa using all (first :: before) i after (by rw [split]; rfl) notPhi operand flows made

instance (body : Body) : Decidable body.Ordered :=
  decidable_of_iff (orderedFrom body.ids [] body.instrs = true) (ordered_from_iff body.ids [] body.instrs)

-- Values from outside of the body come first.
def place (body : Body) (value : ValueId) : Nat :=
  if value ∈ body.ids then body.ids.idxOf value + 1 else 0

theorem operand_place (body : Body) (ordered : body.Ordered) (value user : ValueId)
    (takes : Takes body.func value user) (inside : user ∈ body.ids)
    (notPhi : ∀ instr, body.func.instr? user = some instr → instr.kind ≠ .merge) :
    body.place value < body.place user := by
  obtain ⟨front, back, split, first⟩ := List.eq_append_cons_of_mem inside
  obtain ⟨before, rest, whole, frontIds, restIds⟩ := List.map_eq_append_iff.mp split
  obtain ⟨i, after, rfl, here, _⟩ := List.map_eq_cons_iff.mp restIds
  have defined : body.func.instr? user = some i.instr := by
    rw [← here]
    exact body.instr_defined i (by simp [whole])
  obtain ⟨instr, same, flows⟩ := takes
  cases Option.some.inj (defined.symm.trans same)
  have position : body.ids.idxOf user = front.length := by
    rw [split, List.idxOf_append_of_notMem first, List.idxOf_cons_self, Nat.add_zero]
  rw [place, place, if_pos inside, position]
  split
  · rename_i made
    have earlier : value ∈ front := frontIds ▸ ordered before i after whole (notPhi i.instr defined) value flows made
    rw [split, List.idxOf_append_of_mem earlier]
    exact Nat.succ_lt_succ (List.idxOf_lt_length_of_mem earlier)
  · exact Nat.succ_pos _

end Body

namespace Graph

open AddressChains

def PhiNode (body : Body) (g : Graph) (key : NodeId) : Prop :=
  ∃ n instr, g.nodes.get? key = some n ∧ n.kind = .instruction ∧ n.role = none ∧
    body.func.instr? n.value = some instr ∧ instr.kind = .merge

instance (body : Body) (g : Graph) (key : NodeId) : Decidable (PhiNode body g key) :=
  decidable_of_iff ((g.nodes.get? key).any (fun n => n.isPlain &&
    (body.func.instr? n.value).any fun instr => instr.kind == .merge) = true) (by
      simp [PhiNode, Node.isPlain, Option.any_eq_true, and_assoc])

-- A control edge, or an input of a phi.
def Carries (body : Body) (g : Graph) (e : Edge) : Prop := e.kind ≠ .data ∨ PhiNode body g e.target

instance (body : Body) (g : Graph) (e : Edge) : Decidable (Carries body g e) :=
  inferInstanceAs (Decidable (e.kind ≠ .data ∨ PhiNode body g e.target))

def chainDepth : Option ChainRole → Nat
  | none => 0
  | some .size => 1
  | some .multiply => 2
  | some .add2 => 3
  | some .add1 => 4

def rank (body : Body) (g : Graph) (key : NodeId) : Nat :=
  5 * body.place (g.valueAt key) + (g.nodes.get? key).elim 0 fun n => chainDepth n.role

theorem chain_depth_small (role : Option ChainRole) : chainDepth role < 5 := by
  rcases role with _ | _ | _ | _ | _ <;> decide

theorem rank_node (body : Body) (g : Graph) (key : NodeId) (n : Node) (found : g.nodes.get? key = some n) :
    rank body g key = 5 * body.place n.value + chainDepth n.role := by
  rw [rank, value_at_node g key n found, found, Option.elim_some]

-- A node of the body that is no node of a phi stands for another instruction.
theorem no_merge_at (body : Body) (g : Graph) (traced : Traced body g) (key : NodeId) (n : Node)
    (node : g.nodes.get? key = some n) (inside : n.value ∈ body.ids) (notPhi : ¬PhiNode body g key) (instr : Instr)
    (defined : body.func.instr? n.value = some instr) : instr.kind ≠ .merge := by
  intro merge
  by_cases plain : n.role = none
  · rcases traced.plain key n node plain with ⟨_, _, kind, _⟩ | ⟨_, _, outside⟩
    · exact notPhi ⟨n, instr, node, kind, plain, defined, merge⟩
    · exact outside inside
  · obtain ⟨_, other, same, address⟩ := traced.parts key n node plain
    cases Option.some.inj (defined.symm.trans same)
    rw [merge] at address
    cases address

theorem rank_rises (body : Body) (g : Graph) (mirrored : g.Mirrored) (traced : Traced body g)
    (ordered : body.Ordered) (id : EdgeId) (e : Edge) (found : g.edges.get? id = some e)
    (free : ¬Carries body g e) : rank body g e.source < rank body g e.target := by
  obtain ⟨data, notPhi⟩ := not_or.mp free
  obtain ⟨s, source, _⟩ := mirrored.listed .source id e found
  obtain ⟨t, target, _⟩ := mirrored.listed .target id e found
  have source : g.nodes.get? e.source = some s := source
  have target : g.nodes.get? e.target = some t := target
  rw [rank_node body g e.source s source, rank_node body g e.target t target]
  rcases traced.flows id e found (not_not.mp data) with link | ⟨takes, inside⟩
  · obtain ⟨_, a, b, out, into, first, second, sameValue, aRole, bRole, pair⟩ := link
    cases Option.some.inj (source.symm.trans first)
    cases Option.some.inj (target.symm.trans second)
    have deeper : chainDepth (some out) < chainDepth (some into) := by
      simp only [List.mem_cons, Prod.mk.injEq, List.not_mem_nil, or_false] at pair
      rcases pair with ⟨rfl, rfl⟩ | ⟨rfl, rfl⟩ | ⟨rfl, rfl⟩ <;> decide
    rw [sameValue, aRole, bRole]
    exact Nat.add_lt_add_left deeper _
  · rw [value_at_node g e.source s source, value_at_node g e.target t target] at takes
    rw [value_at_node g e.target t target] at inside
    have lower := body.operand_place ordered s.value t.value takes inside
      (no_merge_at body g traced e.target t target inside notPhi)
    have small := chain_depth_small s.role
    omega

def Along (g : Graph) (allowed : Edge → Prop) (u v : NodeId) : Prop :=
  ∃ id e, g.edges.get? id = some e ∧ allowed e ∧ e.source = u ∧ e.target = v

-- A way on which every edge rises never goes down.
theorem way_falls_or_rises (g : Graph) (height : NodeId → Nat) (allowed : Edge → Prop) (u v : NodeId)
    (way : Relation.ReflTransGen (g.Along allowed) u v) :
    (∃ id e, g.edges.get? id = some e ∧ allowed e ∧ height e.target ≤ height e.source ∧
      Relation.ReflTransGen (g.Along allowed) u e.source ∧ Relation.ReflTransGen (g.Along allowed) e.target v) ∨
        height u ≤ height v := by
  induction way with
  | refl => exact Or.inr (Nat.le_refl _)
  | tail way step ih =>
      obtain ⟨id, e, found, kept, rfl, rfl⟩ := step
      rcases ih with ⟨other, o, there, keptToo, falls, first, second⟩ | rises
      · exact Or.inl ⟨other, o, there, keptToo, falls, first, second.tail ⟨id, e, found, kept, rfl, rfl⟩⟩
      · rcases Nat.lt_or_ge (height e.source) (height e.target) with higher | falls
        · exact Or.inr (Nat.le_trans rises (Nat.le_of_lt higher))
        · exact Or.inl ⟨id, e, found, kept, falls, way, .refl⟩

-- A data edge into anything but a phi is on a cycle only with an edge that falls, which has something to carry.
theorem way_back_carries (body : Body) (g : Graph) (mirrored : g.Mirrored) (traced : Traced body g)
    (ordered : body.Ordered) (allowed : Edge → Prop) (id : EdgeId) (e : Edge) (found : g.edges.get? id = some e)
    (free : ¬Carries body g e) (way : Relation.ReflTransGen (g.Along allowed) e.target e.source) :
    ∃ other o, g.edges.get? other = some o ∧ allowed o ∧ Carries body g o ∧
      rank body g o.target ≤ rank body g o.source ∧
      Relation.ReflTransGen (g.Along allowed) e.target o.source ∧
      Relation.ReflTransGen (g.Along allowed) o.target e.source := by
  have higher := rank_rises body g mirrored traced ordered id e found free
  rcases way_falls_or_rises g (rank body g) allowed e.target e.source way with falling | rises
  · obtain ⟨other, o, there, kept, falls, first, second⟩ := falling
    have carries : Carries body g o := Classical.byContradiction fun idle =>
      Nat.not_le_of_lt (rank_rises body g mirrored traced ordered other o there idle) falls
    exact ⟨other, o, there, kept, carries, falls, first, second⟩
  · exact absurd rises (Nat.not_le_of_lt higher)

-- Goes on in the order of the body, or back to the first node.
def Onward (body : Body) (g : Graph) (e : Edge) : Prop :=
  body.place (g.valueAt e.source) < body.place (g.valueAt e.target) ∨
    ∀ key n, g.nodes.get? key = some n → e.target ≤ key

instance (body : Body) (g : Graph) (e : Edge) : Decidable (Onward body g e) :=
  decidable_of_iff (body.place (g.valueAt e.source) < body.place (g.valueAt e.target) ∨
    ∀ key ∈ g.nodes.keys, e.target ≤ key) (or_congr_right (by
      simp only [Table.mem_keys, Option.isSome_iff_exists, forall_exists_index]))

theorem place_up_rank_up (body : Body) (g : Graph) (mirrored : g.Mirrored) (id : EdgeId) (e : Edge)
    (found : g.edges.get? id = some e)
    (later : body.place (g.valueAt e.source) < body.place (g.valueAt e.target)) :
    rank body g e.source < rank body g e.target := by
  obtain ⟨s, source, _⟩ := mirrored.listed .source id e found
  have small := chain_depth_small s.role
  have source : g.nodes.get? e.source = some s := source
  rw [rank, rank, source, Option.elim_some]
  omega

end Graph

namespace Backedges.Search

theorem first_entered (g : Graph) (mirrored : g.Mirrored) (key : NodeId) (n : Node)
    (node : g.nodes.get? key = some n) (least : ∀ other m, g.nodes.get? other = some m → key ≤ other) :
    (search g).entered.head? = some key := by
  have root : (start g).roots.head? = some key := by
    refine Table.head_keys g.nodes key (Table.mem_keys.mpr (by rw [node]; rfl)) fun other isKey => ?_
    obtain ⟨m, held⟩ := Option.isSome_iff_exists.mp (Table.mem_keys.mp isKey)
    exact least other m held
  obtain ⟨_, begins, _, done⟩ := search_invariant g mirrored
    (fun s => s.entered.head? = some key ∨ (s.entered = [] ∧ s.stack = [] ∧ s.roots.head? = some key))
    (Or.inr ⟨rfl, rfl, root⟩) (by
      intro s next _ begins event
      obtain ⟨new, entered⟩ := entered_event g s next event
      rcases begins with begun | ⟨nothing, idle, waiting⟩
      · refine Or.inl ?_
        rw [entered, List.head?_append, begun]
        rfl
      · cases event with
        | skip root rest _ _ known => simp [nothing] at known
        | start root rest n _ isNext _ _ =>
            rw [isNext] at waiting
            exact Or.inl (by simpa [nothing] using waiting)
        | leave top below busy | mark id e pending below busy | pass id e pending below busy
        | descend id e n pending below busy => simp [idle] at busy)
  rcases begins with begun | ⟨_, _, waiting⟩
  · exact begun
  · rw [done] at waiting
    cases waiting

end Backedges.Search

namespace Graph

open Backedges

theorem annotated_returns (g : Graph) (mirrored : g.Mirrored) (id : EdgeId) (e : Edge)
    (found : (annotate g (search g)).edges.get? id = some e) (marked : e.backedge = true) :
    Search.Returns g (search g) e.target e.source := by
  rw [get_annotate_edge g (search g) mirrored] at found
  obtain ⟨old, there, rfl⟩ := Option.map_eq_some_iff.mp found
  obtain ⟨other, same, back⟩ := Search.marked_returns g mirrored id (by simpa using marked)
  cases Option.some.inj (there.symm.trans same)
  exact back

theorem kept_along (g : Graph) (mirrored : g.Mirrored) (after : List NodeId) (u v : NodeId)
    (step : Search.Kept g (search g) u v ∧ v ∈ after) :
    (annotate g (search g)).Along (fun e => e.backedge = false ∧ e.target ∈ after) u v := by
  obtain ⟨id, e, found, kept, source, target⟩ := (forward_annotate g mirrored u v).mpr step.1
  exact ⟨id, e, found, ⟨kept, target ▸ step.2⟩, source, target⟩

theorem least_not_after (g : Graph) (mirrored : g.Mirrored) (books : Search.Books g (search g)) (key : NodeId)
    (n : Node) (node : g.nodes.get? key = some n) (least : ∀ other m, g.nodes.get? other = some m → key ≤ other)
    (before after : List NodeId) (middle : NodeId) (split : (search g).entered = before ++ middle :: after) :
    key ∉ after := by
  intro member
  have begins := Search.first_entered g mirrored key n node least
  have once := books.enteredOnce
  rw [split] at begins once
  cases before with
  | nil =>
      cases begins
      exact (List.nodup_cons.mp once).1 member
  | cons head before =>
      cases begins
      exact (List.nodup_cons.mp once).1 (List.mem_append_right _ (List.mem_cons_of_mem _ member))

theorem construct_annotated (body : Body) (pdom : ControlLinks.PostDominates) (finished : Graph)
    (built : construct body pdom = .ok finished) :
    ∃ g, g.WellFormed ∧ finished = annotate g (search g) ∧ finished.WellFormed ∧ Traced body finished := by
  obtain ⟨start, linked, controlled, middle, started, completed⟩ := construct_completed body pdom finished built
  have placed := of_body_placed body start started
  have well := completed_well_formed body pdom start linked controlled middle finished placed.well completed
  rw [completed.graphs] at well
  exact ⟨AddressChains.withoutStaged body.func controlled middle, well _ (by simp), completed.last,
    well finished (by simp), completed_traced body pdom start linked controlled middle finished placed completed⟩

-- The way back keeps to nodes entered later, and nothing is entered before the first node, so that the edge
-- on it that falls goes neither to the first node nor on in the order of the body.
theorem cut_into_phi (body : Body) (g : Graph) (mirrored : g.Mirrored)
    (wellFinished : (annotate g (search g)).WellFormed) (traced : Traced body (annotate g (search g)))
    (ordered : body.Ordered) (id : EdgeId) (e : Edge)
    (found : (annotate g (search g)).edges.get? id = some e) (data : e.kind = .data) (cut : e.backedge = true)
    (onward : ∀ other o, (annotate g (search g)).edges.get? other = some o →
      Carries body (annotate g (search g)) o → Onward body (annotate g (search g)) o) :
    PhiNode body (annotate g (search g)) e.target := by
  refine Classical.byContradiction fun notPhi => ?_
  obtain ⟨before, after, split, way⟩ := annotated_returns g mirrored id e found cut
  have along := Relation.ReflTransGen.mono (kept_along g mirrored after) _ _ way
  have free : ¬Carries body (annotate g (search g)) e := fun carries => carries.elim (fun other => other data) notPhi
  obtain ⟨other, o, there, ⟨_, entered⟩, carries, falls, _⟩ :=
    way_back_carries body _ wellFinished.mirrored traced ordered _ id e found free along
  rcases onward other o there carries with later | least
  · exact Nat.not_le_of_lt (place_up_rank_up body _ wellFinished.mirrored other o there later) falls
  · obtain ⟨n, node, _⟩ := wellFinished.mirrored.listed .target other o there
    have node : (annotate g (search g)).nodes.get? o.target = some n := node
    rw [get_annotate_node] at node
    obtain ⟨m, held, _⟩ := Option.map_eq_some_iff.mp node
    have first : ∀ key k, g.nodes.get? key = some k → o.target ≤ key := fun key k there =>
      least key _ (by rw [get_annotate_node, there, Option.map_some])
    exact least_not_after g mirrored (Search.search_sorted g mirrored).1 o.target m held first before after e.target
      split entered

-- Every data edge that is cut closes a cycle of edges that are not, with an input of a phi or a control
-- edge among them all. Where such edges go on in the order of the body, or back to the first node, the cut
-- edge is an input of a phi itself.
theorem cut_closes_carried_cycle (body : Body) (pdom : ControlLinks.PostDominates) (finished : Graph)
    (built : construct body pdom = .ok finished) (ordered : body.Ordered) (id : EdgeId) (e : Edge)
    (found : finished.edges.get? id = some e) (data : e.kind = .data) (cut : e.backedge = true) :
    Relation.ReflTransGen finished.Forward e.target e.source ∧
      (PhiNode body finished e.target ∨ ∃ other o, finished.edges.get? other = some o ∧ o.backedge = false ∧
        (o.kind ≠ .data ∨ PhiNode body finished o.target) ∧
        Relation.ReflTransGen finished.Forward e.target o.source ∧
        Relation.ReflTransGen finished.Forward o.target e.source) ∧
      ((∀ other o, finished.edges.get? other = some o → Carries body finished o → Onward body finished o) →
        PhiNode body finished e.target) := by
  obtain ⟨g, well, rfl, wellFinished, traced⟩ := construct_annotated body pdom finished built
  obtain ⟨before, after, _, way⟩ := annotated_returns g well.mirrored id e found cut
  have back : Relation.ReflTransGen (annotate g (search g)).Forward e.target e.source :=
    Relation.ReflTransGen.mono (fun u v step => (forward_annotate g well.mirrored u v).mpr step.1) _ _ way
  refine ⟨back, ?_, cut_into_phi body g well.mirrored wellFinished traced ordered id e found data cut⟩
  by_cases phi : PhiNode body (annotate g (search g)) e.target
  · exact Or.inl phi
  · have free : ¬Carries body (annotate g (search g)) e :=
      fun carries => carries.elim (fun other => other data) phi
    obtain ⟨other, o, there, kept, carries, _, first, second⟩ :=
      way_back_carries body _ wellFinished.mirrored traced ordered (fun o => o.backedge = false) id e found free back
    exact Or.inr ⟨other, o, there, kept, carries, first, second⟩

-- Whether a data edge from `u` to `v` is cut, and `v` is no phi.
def cutBetween (g : Graph) (body : Body) (u v : NodeId) : Bool :=
  !decide (PhiNode body g v) &&
    g.edges.values.any fun e => e.kind == .data && e.backedge && e.source == u && e.target == v

theorem cut_between_edge (body : Body) (g : Graph) (u v : NodeId) (cut : g.cutBetween body u v = true) :
    ∃ id e, g.edges.get? id = some e ∧ e.kind = .data ∧ e.backedge = true ∧ e.source = u ∧ e.target = v ∧
      ¬PhiNode body g v := by
  simp only [cutBetween, Bool.and_eq_true, Bool.not_eq_true', decide_eq_false_iff_not, List.any_eq_true,
    beq_iff_eq] at cut
  obtain ⟨notPhi, e, member, ⟨⟨data, marked⟩, source⟩, target⟩ := cut
  obtain ⟨id, found⟩ := Table.mem_values.mp member
  exact ⟨id, e, found, data, marked, source, target, notPhi⟩

end Graph

open LoopDeps.Flow

def loopsOf (f : Func) : LoopNest := LoopNest.ofForest (LoopForest.ofFunc f)

def bodyOf (f : Func) (loop : LoopId) : Body := ⟨0, f, (loopsOf f).blocksOf loop⟩

-- Whether loop 0 of a function is innermost, has such an order in its body, and has a graph that passes the check.
def innermostPasses (f : Func) (check : Body → Graph → Bool) : Bool :=
  (loopsOf f).order.contains 0 && (loopsOf f).isInnermost 0 && decide (bodyOf f 0).Ordered &&
    match Graph.construct (bodyOf f 0) (postDominance f).dominates with
    | .ok g => check (bodyOf f 0) g
    | .error _ => false

theorem of_innermost_passes (f : Func) (check : Body → Graph → Bool) (passes : innermostPasses f check = true) :
    0 ∈ (loopsOf f).order ∧ (loopsOf f).isInnermost 0 = true ∧ (bodyOf f 0).Ordered ∧
      ∃ g, Graph.construct (bodyOf f 0) (postDominance f).dominates = .ok g ∧ check (bodyOf f 0) g = true := by
  simp only [innermostPasses, Bool.and_eq_true, List.contains_iff_mem, decide_eq_true_eq] at passes
  obtain ⟨⟨⟨inOrder, innermost⟩, ordered⟩, rest⟩ := passes
  split at rest
  · rename_i g built
    exact ⟨inOrder, innermost, ordered, g, built, rest⟩
  · cases rest

-- A sum over a counter. The addition is entered from the counter, before the phi of the sum is.
def crossed : String := "func @sum(%n: i32) \x7b
entry:
  br label %loop
loop:
  %i = phi i32 [0, %entry], [%j, %loop]
  %s = phi i32 [0, %entry], [%t, %loop]
  %t = add i32 %s, %i
  %j = add i32 %i, 1
  %c = icmp i1 %j, %n
  br %c, label %loop, label %exit
exit:
  ret void
\x7d
"

def crossedCheck : Bool :=
  match parse crossed with
  | .ok [f] => innermostPasses f fun body g => g.cutBetween body 2 3
  | _ => false

set_option maxRecDepth 100000 in
theorem crossed_check : crossedCheck = true := by decide +kernel

theorem crossed_cut :
    ∃ f g, parse crossed = .ok [f] ∧ 0 ∈ (loopsOf f).order ∧ (loopsOf f).isInnermost 0 = true ∧
      (bodyOf f 0).Ordered ∧ Graph.construct (bodyOf f 0) (postDominance f).dominates = .ok g ∧
      Graph.cutBetween g (bodyOf f 0) 2 3 = true := by
  have check := crossed_check
  unfold crossedCheck at check
  split at check
  · rename_i f parsed
    obtain ⟨inOrder, innermost, ordered, g, built, cut⟩ := of_innermost_passes f _ check
    exact ⟨f, g, parsed, inOrder, innermost, ordered, built, cut⟩
  · cases check

-- A counter that goes up in one arm only. The arms join in a phi, which the branch back comes after.
def stepped : Func :=
  let blocks := ["entry", "loop", "up", "latch", "exit"].foldl
    (fun f label => (f.addBlock label Func.defaultWeight).1) (Func.new "step")
  let values := ["0", "1"].foldl (fun f text => (f.constant text).1) (blocks.addArgument "n" (.int 32)).1
  let instrs : List Instr :=
    [⟨none, "br", .void, [], [1], 0⟩,
      ⟨some "i", "phi", .int 32, [1, 8], [], 1⟩,
      ⟨none, "br", .void, [4], [2, 3], 1⟩,
      ⟨some "j", "add", .int 32, [4, 2], [], 2⟩,
      ⟨none, "br", .void, [], [3], 2⟩,
      ⟨some "k", "phi", .int 32, [4, 6], [], 3⟩,
      ⟨none, "br", .void, [0], [1, 4], 3⟩,
      ⟨none, "ret", .void, [], [], 4⟩]
  (instrs.foldl (fun f instr => (f.push instr).1) values).link

def onwardWithCut (body : Body) (g : Graph) : Bool :=
  (g.edges.values.all fun o => decide (g.Carries body o → g.Onward body o)) &&
    g.edges.values.any fun e => e.kind == .data && e.backedge

set_option maxRecDepth 10000 in
theorem stepped_passes : innermostPasses stepped onwardWithCut = true := by decide +kernel

theorem crossed_and_stepped_cycles :
    (∃ (f : Func) (finished : Graph) (id : EdgeId) (e : Edge),
      Graph.construct (bodyOf f 0) (postDominance f).dominates = .ok finished ∧
      (bodyOf f 0).Ordered ∧ finished.edges.get? id = some e ∧ e.kind = .data ∧ e.backedge = true ∧
      e.source = 2 ∧ e.target = 3 ∧
      Relation.ReflTransGen finished.Forward e.target e.source ∧
      ∃ other o, finished.edges.get? other = some o ∧ o.backedge = false ∧
        (o.kind ≠ .data ∨ Graph.PhiNode (bodyOf f 0) finished o.target)) ∧
    ∃ (finished : Graph) (id : EdgeId) (e : Edge),
      Graph.construct (bodyOf stepped 0) (postDominance stepped).dominates = .ok finished ∧
      (bodyOf stepped 0).Ordered ∧ finished.edges.get? id = some e ∧ e.kind = .data ∧ e.backedge = true ∧
      Graph.PhiNode (bodyOf stepped 0) finished e.target := by
  constructor
  · obtain ⟨f, finished, _, _, _, ordered, built, cut⟩ := crossed_cut
    obtain ⟨id, e, found, data, marked, source, target, notPhi⟩ := Graph.cut_between_edge _ finished 2 3 cut
    obtain ⟨back, carried, _⟩ := Graph.cut_closes_carried_cycle (bodyOf f 0) (postDominance f).dominates finished
      built ordered id e found data marked
    rcases carried with phi | ⟨other, o, there, kept, carries, _⟩
    · exact absurd (target ▸ phi) notPhi
    · exact ⟨f, finished, id, e, built, ordered, found, data, marked, source, target, back, other, o, there, kept,
        carries⟩
  · obtain ⟨_, _, ordered, finished, built, passes⟩ := of_innermost_passes stepped _ stepped_passes
    simp only [onwardWithCut, Bool.and_eq_true, List.all_eq_true, decide_eq_true_eq, List.any_eq_true,
      beq_iff_eq] at passes
    obtain ⟨onward, e, member, data, marked⟩ := passes
    obtain ⟨id, found⟩ := Table.mem_values.mp member
    obtain ⟨_, _, phi⟩ := Graph.cut_closes_carried_cycle (bodyOf stepped 0) (postDominance stepped).dominates
      finished built ordered id e found data marked
    exact ⟨finished, id, e, built, ordered, found, data, marked,
      phi fun other o there => onward o (Table.mem_values.mpr ⟨other, there⟩)⟩

-- Of the innermost loops of a text, with such an order in their bodies, only inputs of phis are cut.
def OnlyPhiInputsCut : Prop :=
  ∀ text fs, parse text = .ok fs → ∀ f ∈ fs, ∀ loop ∈ (loopsOf f).order, (loopsOf f).isInnermost loop = true →
    (bodyOf f loop).Ordered → ∀ finished,
      Graph.construct (bodyOf f loop) (postDominance f).dominates = .ok finished →
      ∀ id e, finished.edges.get? id = some e → e.kind = .data → e.backedge = true →
        Graph.PhiNode (bodyOf f loop) finished e.target

theorem not_only_phi_inputs_cut : ¬OnlyPhiInputsCut := by
  intro claimed
  obtain ⟨f, finished, parsed, inOrder, innermost, ordered, built, cut⟩ := crossed_cut
  obtain ⟨id, e, found, data, marked, _, target, notPhi⟩ := Graph.cut_between_edge _ finished 2 3 cut
  have phi := claimed crossed [f] parsed f List.mem_cons_self 0 inOrder innermost ordered finished built id e found
    data marked
  exact notPhi (target ▸ phi)

end LoopDeps
