import LoopDeps.Proofs.Graph.Weighing
set_option autoImplicit false

/- The graph of a body with its data links, written down at once. The instructions of the body come first and
   the values from outside after them, each at its first use. Linking goes through the same picture with fewer
   uses: while an edge is on its way its producer is met already, and only then it is drawn. -/
namespace LoopDeps

-- Only the first occurrences stay, so a copy of an earlier entry changes nothing.
theorem first_seen_concat (values : List Nat) (value : Nat) :
    (values ++ [value]).eraseDups =
      if value ∈ values then values.eraseDups else values.eraseDups ++ [value] := by
  rw [List.eraseDups_append]
  by_cases member : value ∈ values
  · simp [List.removeAll, member]
  · simp [List.removeAll, member, List.eraseDups_cons]

theorem first_seen_nodup (values : List Nat) : values.eraseDups.Nodup := by
  induction values using List.reverseRecOn with
  | nil => exact List.nodup_nil
  | append_singleton values value ih =>
      rw [first_seen_concat]
      split
      · exact ih
      · rename_i new
        exact List.nodup_append.mpr ⟨ih, List.nodup_singleton value,
          fun old held last here => by
            rw [List.mem_singleton.mp here]
            rintro rfl
            exact new (List.mem_eraseDups.mp held)⟩

namespace Table

-- Values under the keys from one on.
def numbered {α : Type} (values : List α) : Table α :=
  ⟨values.mapIdx fun position value => (position + 1, value), by
    refine List.pairwise_iff_getElem.mpr fun first second _ _ before => ?_
    rw [List.getElem_mapIdx, List.getElem_mapIdx]
    exact Nat.succ_lt_succ before⟩

-- The places of different keys, counted from one.
def places (keys : List Nat) : Table Nat :=
  keys.zipIdx.foldl (fun table (key, position) => table.insert key (position + 1)) empty

variable {α β : Type}

theorem get_numbered (values : List α) (position : Nat) : (numbered values).get? (position + 1) = values[position]? := by
  apply Option.ext
  intro value
  rw [get_eq_some, List.getElem?_eq_some_iff, numbered, List.mem_mapIdx]
  simp

theorem get_numbered_zero (values : List α) : (numbered values).get? 0 = none := by
  rw [Option.eq_none_iff_forall_ne_some]
  intro value found
  rw [get_eq_some, numbered, List.mem_mapIdx] at found
  simp at found

theorem values_numbered (values : List α) : (numbered values).values = values := by
  apply List.ext_getElem?
  intro position
  rw [Table.values, numbered, List.getElem?_map, List.getElem?_mapIdx, Option.map_map]
  exact Option.map_id'

theorem ext_numbered (t : Table α) (values : List α) (zero : t.get? 0 = none)
    (each : ∀ position, t.get? (position + 1) = values[position]?) : t = numbered values := by
  apply ext_get
  intro key
  cases key with
  | zero => rw [zero, get_numbered_zero]
  | succ position => rw [each, get_numbered]

theorem numbered_concat (values : List α) (value : α) :
    (numbered values).insert (values.length + 1) value = numbered (values ++ [value]) := by
  apply ext_numbered
  · rw [get_insert, if_neg (by omega), get_numbered_zero]
  · intro position
    rw [get_insert, get_numbered, List.getElem?_append]
    grind

theorem map_numbered (f : α → β) (values : List α) : (numbered values).map f = numbered (values.map f) := by
  apply ext_numbered
  · rw [get_map, get_numbered_zero]
    rfl
  · intro position
    rw [get_map, get_numbered, List.getElem?_map]

theorem modify_numbered (f : α → α) (values : List α) (position : Nat) :
    (numbered values).modify (position + 1) f = numbered (values.modify position f) := by
  apply ext_numbered
  · rw [get_modify, if_neg (by omega), get_numbered_zero]
  · intro other
    rw [get_modify, get_numbered, List.getElem?_modify]
    grind

theorem places_concat (keys : List Nat) (key : Nat) :
    places (keys ++ [key]) = (places keys).insert key (keys.length + 1) := by
  rw [places, List.zipIdx_append, List.foldl_append]
  simp [places]

theorem get_places (keys : List Nat) (once : keys.Nodup) (key : Nat) :
    (places keys).get? key = if key ∈ keys then some (keys.idxOf key + 1) else none := by
  induction keys using List.reverseRecOn with
  | nil => rfl
  | append_singleton keys last ih =>
      obtain ⟨before, _, new⟩ := List.nodup_append.mp once
      rw [places_concat, get_insert, ih before]
      have fresh : last ∉ keys := fun member => new last member last (List.mem_singleton_self last) rfl
      by_cases here : key = last
      · subst here
        rw [if_pos rfl, if_pos (by simp), List.idxOf_append_of_notMem fresh]
        simp
      · by_cases member : key ∈ keys
        · rw [if_neg here, if_pos member, if_pos (List.mem_append_left _ member), List.idxOf_append_of_mem member]
        · rw [if_neg here, if_neg member, if_neg (by simp [member, here])]

end Table

-- An operand as it flows into the node of the instruction that lists it.
structure Use where
  user : NodeId
  weight : Float
  operand : ValueId
deriving DecidableEq, Repr

-- What all uses of a value weigh together.
def Use.total (uses : List Use) (value : ValueId) : Float :=
  (Graph.leftSum? ((uses.filter fun use => use.operand == value).map Use.weight)).getD 0.0

namespace Use

variable (done : List Use) (use : Use)

theorem total_other (value : ValueId) (other : use.operand ≠ value) :
    total (done ++ [use]) value = total done value := by
  simp [total, List.filter_append, other]

theorem total_first (new : use.operand ∉ done.map Use.operand) :
    total (done ++ [use]) use.operand = use.weight := by
  have unmet : done.filter (fun old => old.operand == use.operand) = [] :=
    List.filter_eq_nil_iff.mpr fun old member same =>
      new (List.mem_map.mpr ⟨old, member, beq_iff_eq.mp same⟩)
  simp [total, List.filter_append, unmet, Graph.leftSum?]

theorem total_again (again : use.operand ∈ done.map Use.operand) :
    total (done ++ [use]) use.operand = total done use.operand + use.weight := by
  obtain ⟨old, member, same⟩ := List.mem_map.mp again
  have held : old ∈ done.filter fun old => old.operand == use.operand :=
    List.mem_filter.mpr ⟨member, beq_iff_eq.mpr same⟩
  have split : (done ++ [use]).filter (fun old => old.operand == use.operand) =
      done.filter (fun old => old.operand == use.operand) ++ [use] := by
    simp [List.filter_append]
  rw [total, total, split, List.map_append]
  cases terms : (done.filter fun old => old.operand == use.operand).map Use.weight with
  | nil => exact absurd (List.mem_map_of_mem held) (terms ▸ List.not_mem_nil)
  | cons first rest =>
      rw [List.map_singleton, Graph.left_sum_append (first :: rest) use.weight _ rfl]
      rfl

end Use

namespace Body

def useOf (i : BodyInstr) (position : Nat) (operand : ValueId) : Use := ⟨position + 1, i.weight, operand⟩

def usesOf (i : BodyInstr) (position : Nat) : List Use := i.instr.dataOperands.map (useOf i position)

-- In the order of the body, then of the operands.
def uses (body : Body) : List Use := body.instrs.zipIdx.flatMap fun (i, position) => usesOf i position

variable (body : Body) (met drawn : List Use)

-- The values that no instruction of the body gives, in the order of their first uses.
def outsiders : List ValueId := ((met.map Use.operand).filter fun value => value ∉ body.ids).eraseDups

-- The values that have a node, in the order of their nodes.
def known : List ValueId := body.ids ++ body.outsiders met

def placeOf (value : ValueId) : NodeId := (body.known met).idxOf value + 1

def outsiderNode (position : Nat) (value : ValueId) : Node :=
  Node.external (body.ids.length + position + 1) value (body.func.valueName value) (Use.total met value)

def drafted : List Node :=
  (body.instrs.mapIdx fun position i => Graph.nodeOf (position + 1) i) ++
    (body.outsiders met).mapIdx (body.outsiderNode met)

def link (position : Nat) (use : Use) : Edge :=
  ⟨position + 1, .data, use.weight, body.placeOf met use.operand, use.user, false⟩

def links : List Edge := drawn.mapIdx (body.link met)

end Body

-- The edges that have an end at a node, in their order.
def Edge.listed (edges : List Edge) (side : End) (key : NodeId) : List EdgeId :=
  (edges.filter fun e => e.endAt side == key).map Edge.id

def Node.tied (edges : List Edge) (n : Node) : Node :=
  { n with outgoing := Edge.listed edges .source n.id, incoming := Edge.listed edges .target n.id }

-- The graph when the producers of `met` have their nodes and `drawn` have their edges.
def Graph.draft (body : Body) (met drawn : List Use) : Graph :=
  { loopId := body.loopId
    nodes := Table.numbered ((body.drafted met).map (Node.tied (body.links met drawn)))
    edges := Table.numbered (body.links met drawn)
    byValue := Table.places (body.known met)
    chain := []
    coverage := body.coverage
    lastNode := (body.known met).length
    lastEdge := drawn.length }

namespace Body

variable (body : Body) (once : body.ids.Nodup) (done : List Use) (use : Use)

theorem mem_outsiders (value : ValueId) :
    value ∈ body.outsiders done ↔ value ∈ done.map Use.operand ∧ value ∉ body.ids := by
  rw [outsiders, List.mem_eraseDups, List.mem_filter, decide_eq_true_iff]

theorem mem_known (value : ValueId) :
    value ∈ body.known done ↔ value ∈ body.ids ∨ value ∈ done.map Use.operand := by
  rw [known, List.mem_append, mem_outsiders]
  by_cases inside : value ∈ body.ids <;> simp [inside]

theorem met_known (member : use ∈ done) : use.operand ∈ body.known done :=
  (body.mem_known done use.operand).mpr (.inr (List.mem_map_of_mem member))

include once in
theorem known_nodup : (body.known done).Nodup := by
  refine List.nodup_append.mpr ⟨once, first_seen_nodup _, fun value inside other outside => ?_⟩
  rintro rfl
  exact ((body.mem_outsiders done value).mp outside).2 inside

theorem outsiders_concat :
    body.outsiders (done ++ [use]) =
      if use.operand ∈ body.known done then body.outsiders done else body.outsiders done ++ [use.operand] := by
  rw [outsiders, List.map_append, List.filter_append]
  by_cases inside : use.operand ∈ body.ids
  · rw [if_pos ((body.mem_known done _).mpr (.inl inside))]
    simp [inside, outsiders]
  · have last : ([use].map Use.operand).filter (fun value => value ∉ body.ids) = [use.operand] := by simp [inside]
    rw [last, first_seen_concat]
    refine if_congr ?_ rfl rfl
    rw [mem_known, List.mem_filter, decide_eq_true_iff]
    simp [inside]

theorem known_again (again : use.operand ∈ body.known done) : body.known (done ++ [use]) = body.known done := by
  rw [known, outsiders_concat, if_pos again, known]

theorem known_new (new : use.operand ∉ body.known done) :
    body.known (done ++ [use]) = body.known done ++ [use.operand] := by
  rw [known, outsiders_concat, if_neg new, known, List.append_assoc]

theorem place_instr (value : ValueId) (within : value ∈ body.ids) :
    body.placeOf done value = body.ids.idxOf value + 1 := by
  rw [placeOf, known, List.idxOf_append_of_mem within]

theorem place_outsider (position : Nat) (value : ValueId) (here : (body.outsiders done)[position]? = some value) :
    body.placeOf done value = body.ids.length + position + 1 := by
  have outside := ((body.mem_outsiders done value).mp (List.mem_of_getElem? here)).2
  obtain ⟨bound, rfl⟩ := List.getElem?_eq_some_iff.mp here
  have different : (body.outsiders done).Nodup := first_seen_nodup _
  rw [placeOf, known, List.idxOf_append_of_notMem outside, different.idxOf_getElem]

theorem place_new (new : use.operand ∉ body.known done) :
    body.placeOf (done ++ [use]) use.operand = (body.known done).length + 1 := by
  rw [placeOf, body.known_new done use new, List.idxOf_append_of_notMem new, List.idxOf_cons_self, Nat.add_zero]

-- A node keeps its id when more values are met.
theorem place_later (value : ValueId) (before : value ∈ body.known done) :
    body.placeOf (done ++ [use]) value = body.placeOf done value := by
  by_cases again : use.operand ∈ body.known done
  · rw [placeOf, body.known_again done use again, placeOf]
  · rw [placeOf, body.known_new done use again, List.idxOf_append_of_mem before, placeOf]

theorem links_later : body.links (done ++ [use]) done = body.links done done := by
  rw [links, links, List.mapIdx_eq_mapIdx_iff]
  intro position bound
  rw [link, body.place_later done use _ (body.met_known done _ (List.getElem_mem bound)), link]

theorem links_concat (met drawn : List Use) :
    body.links met (drawn ++ [use]) = body.links met drawn ++ [body.link met drawn.length use] :=
  List.mapIdx_concat

theorem drafted_instr (position : Nat) (i : BodyInstr) (here : body.instrs[position]? = some i) :
    (body.drafted done)[position]? = some (Graph.nodeOf (position + 1) i) := by
  have bound : position < body.instrs.length := (List.getElem?_eq_some_iff.mp here).1
  rw [drafted, List.getElem?_append_left (by simpa using bound), List.getElem?_mapIdx, here]
  rfl

theorem drafted_outsider (position : Nat) (value : ValueId) (here : (body.outsiders done)[position]? = some value) :
    (body.drafted done)[body.ids.length + position]? = some (body.outsiderNode done position value) := by
  have size : (body.instrs.mapIdx fun position i => Graph.nodeOf (position + 1) i).length = body.ids.length := by
    simp [ids]
  rw [drafted, List.getElem?_append_right (by omega), size, Nat.add_sub_cancel_left, List.getElem?_mapIdx, here]
  rfl

theorem drafted_length : (body.drafted done).length = (body.known done).length := by
  simp [drafted, known, ids]

theorem drafted_id (position : Nat) (n : Node) (here : (body.drafted done)[position]? = some n) : n.id = position + 1 := by
  rw [drafted, List.getElem?_append] at here
  split at here
  · obtain ⟨i, _, rfl⟩ := Option.map_eq_some_iff.mp (List.getElem?_mapIdx.symm.trans here)
    rfl
  · rename_i after
    obtain ⟨value, _, rfl⟩ := Option.map_eq_some_iff.mp (List.getElem?_mapIdx.symm.trans here)
    have size : body.ids.length = body.instrs.length := List.length_map _
    rw [List.length_mapIdx] at after ⊢
    show body.ids.length + (position - body.instrs.length) + 1 = position + 1
    omega

-- A use of an instruction of the body changes no node.
theorem drafted_inside (inside : use.operand ∈ body.ids) : body.drafted (done ++ [use]) = body.drafted done := by
  have same := body.outsiders_concat done use
  rw [if_pos ((body.mem_known done _).mpr (.inl inside))] at same
  rw [drafted, drafted, same, List.append_cancel_left_eq, List.mapIdx_eq_mapIdx_iff]
  intro position bound
  have outside := ((body.mem_outsiders done _).mp (List.getElem_mem bound)).2
  rw [outsiderNode, outsiderNode, Use.total_other done use _ (ne_of_mem_of_not_mem inside outside)]

theorem drafted_again (position : Nat) (here : (body.outsiders done)[position]? = some use.operand) :
    body.drafted (done ++ [use]) =
      (body.drafted done).modify (body.ids.length + position) fun n => { n with weight := n.weight + use.weight } := by
  obtain ⟨bound, value⟩ := List.getElem?_eq_some_iff.mp here
  have member := (body.mem_outsiders done use.operand).mp (List.mem_of_getElem? here)
  have same := body.outsiders_concat done use
  rw [if_pos ((body.mem_known done _).mpr (.inr member.1))] at same
  have last : (body.outsiders done).mapIdx (body.outsiderNode (done ++ [use])) =
      ((body.outsiders done).mapIdx (body.outsiderNode done)).modify position
        fun n => { n with weight := n.weight + use.weight } := by
    refine List.ext_getElem (by simp) fun other inside _ => ?_
    rw [List.length_mapIdx] at inside
    rw [List.getElem_modify, List.getElem_mapIdx, List.getElem_mapIdx]
    by_cases equal : position = other
    · subst equal
      rw [if_pos rfl, value, outsiderNode, Use.total_again done use member.1]
      rfl
    · have apart : use.operand ≠ (body.outsiders done)[other] := fun meets =>
        equal ((first_seen_nodup _).getElem_inj_iff.mp (value.trans meets))
      rw [if_neg equal, outsiderNode, Use.total_other done use _ apart, outsiderNode]
  have first : (body.instrs.mapIdx fun position i => Graph.nodeOf (position + 1) i).length = body.ids.length := by
    simp [ids]
  rw [drafted, same, last, drafted, ← first]
  exact (List.modifyTailIdx_add _ position _ _).symm

theorem drafted_new (new : use.operand ∉ body.known done) :
    body.drafted (done ++ [use]) = body.drafted done ++
      [Node.external ((body.known done).length + 1) use.operand (body.func.valueName use.operand) use.weight] := by
  have unmet : use.operand ∉ done.map Use.operand := fun member => new ((body.mem_known done _).mpr (.inr member))
  have more := body.outsiders_concat done use
  rw [if_neg new] at more
  have old : (body.outsiders done).mapIdx (body.outsiderNode (done ++ [use])) =
      (body.outsiders done).mapIdx (body.outsiderNode done) := by
    rw [List.mapIdx_eq_mapIdx_iff]
    intro position bound
    have member := ((body.mem_outsiders done _).mp (List.getElem_mem bound)).1
    rw [outsiderNode, Use.total_other done use _ (ne_of_mem_of_not_mem member unmet).symm, outsiderNode]
  rw [drafted, more, List.mapIdx_concat, old, drafted, outsiderNode, Use.total_first done use unmet, known,
    List.length_append, List.append_assoc]

end Body

theorem Edge.listed_concat (edges : List Edge) (e : Edge) (side : End) (key : NodeId) :
    listed (edges ++ [e]) side key = listed edges side key ++ if key = e.endAt side then [e.id] else [] := by
  by_cases here : e.endAt side = key
  · simp [listed, List.filter_append, here]
  · simp [listed, List.filter_append, here, Ne.symm here]

namespace Node

theorem tied_concat (edges : List Edge) (e : Edge) (n : Node) :
    n.tied (edges ++ [e]) = (n.tied edges).joined n.id e := by
  rw [tied, Edge.listed_concat, Edge.listed_concat]
  rfl

theorem tied_bare (edges : List Edge) (n : Node) (apart : ∀ e ∈ edges, ∀ side, e.endAt side ≠ n.id)
    (bare : Graph.Bare n) : n.tied edges = n := by
  have unlisted : ∀ side, Edge.listed edges side n.id = n.listing side := by
    intro side
    rw [bare side, Edge.listed, List.map_eq_nil_iff, List.filter_eq_nil_iff]
    exact fun e member same => apart e member side (beq_iff_eq.mp same)
  rw [tied, unlisted, unlisted]
  rfl

end Node

namespace Graph

variable (body : Body) (once : body.ids.Nodup) (met drawn : List Use) (use : Use)

theorem draft_node (position : Nat) :
    (draft body met drawn).nodes.get? (position + 1) =
      (body.drafted met)[position]?.map (Node.tied (body.links met drawn)) := by
  rw [draft, Table.get_numbered, List.getElem?_map]

include once in
theorem draft_value (value : ValueId) :
    (draft body met drawn).nodeOf? value =
      if value ∈ body.known met then some (body.placeOf met value) else none :=
  Table.get_places _ (body.known_nodup once met) value

-- The edge of a use is the next one.
theorem draft_draws :
    Edit.attach (draft body met drawn) (body.placeOf met use.operand) use.user .data use.weight =
      draft body met (drawn ++ [use]) := by
  let g := draft body met drawn
  let next := Edit.attach g (body.placeOf met use.operand) use.user .data use.weight
  have edges : next.edges = (draft body met (drawn ++ [use])).edges := by
    have concat := Table.numbered_concat (body.links met drawn) (body.link met drawn.length use)
    rw [Body.links, List.length_mapIdx, ← Body.links, ← body.links_concat] at concat
    exact concat
  have nodes : next.nodes = (draft body met (drawn ++ [use])).nodes := by
    apply Table.ext_get
    intro key
    rw [get_attach_node]
    cases key with
    | zero => exact (congrArg (Option.map _) (Table.get_numbered_zero _)).trans (Table.get_numbered_zero _).symm
    | succ position =>
      rw [draft_node, draft_node, Option.map_map, body.links_concat]
      cases here : (body.drafted met)[position]? with
      | none => rfl
      | some n =>
        have key := body.drafted_id met position n here
        rw [Option.map_some, Option.map_some, Node.tied_concat, key]
        rfl
  have size : drawn.length + 1 = (drawn ++ [use]).length := by rw [List.length_append, List.length_singleton]
  have same : next = { g with nodes := next.nodes, edges := next.edges, lastEdge := drawn.length + 1 } := rfl
  rw [show Edit.attach _ _ _ _ _ = next from rfl, same, nodes, edges, size]
  rfl

-- The nodes that the edges so far are at were there before.
theorem link_apart (done : List Use) (inside : ∀ use ∈ done, use.user ≤ body.ids.length) (e : Edge)
    (member : e ∈ body.links done done) (side : End) : e.endAt side ≠ (body.known done).length + 1 := by
  obtain ⟨position, bound, rfl⟩ := List.mem_mapIdx.mp member
  have used := List.getElem_mem bound
  cases side with
  | source =>
    have below := List.idxOf_lt_length_of_mem (body.met_known done _ used)
    exact Nat.ne_of_lt (Nat.succ_lt_succ below)
  | target =>
    have below := inside _ used
    have more : body.ids.length ≤ (body.known done).length := by simp [Body.known]
    exact Nat.ne_of_lt (Nat.lt_succ_of_le (Nat.le_trans below more))

-- A value met for the first time.
theorem draft_meets (done : List Use) (inside : ∀ use ∈ done, use.user ≤ body.ids.length)
    (new : use.operand ∉ body.known done) :
    (draft body done done).withFresh.insertValueNode
        (Node.external ((draft body done done).lastNode + 1) use.operand (body.func.valueName use.operand) use.weight) =
      draft body (done ++ [use]) done := by
  let n := Node.external ((body.known done).length + 1) use.operand (body.func.valueName use.operand) use.weight
  have bare : n.tied (body.links done done) = n := by
    refine Node.tied_bare _ n (link_apart body done inside) fun side => ?_
    cases side <;> rfl
  have nodes : (draft body done done).nodes.insert n.id n = (draft body (done ++ [use]) done).nodes := by
    have concat := Table.numbered_concat ((body.drafted done).map (Node.tied (body.links done done))) n
    rw [List.length_map, Body.drafted_length] at concat
    refine concat.trans ?_
    rw [draft, body.drafted_new done use new, body.links_later, List.map_append, List.map_singleton, bare]
  have values : (draft body done done).byValue.insert use.operand n.id = (draft body (done ++ [use]) done).byValue := by
    rw [draft, draft, body.known_new done use new, Table.places_concat]
    rfl
  have edges : (draft body done done).edges = (draft body (done ++ [use]) done).edges := by
    rw [draft, draft, body.links_later]
  have last : (body.known done).length + 1 = (body.known (done ++ [use])).length := by
    rw [body.known_new done use new, List.length_append, List.length_singleton]
  have same : (draft body done done).withFresh.insertValueNode n =
      { draft body done done with
        nodes := (draft body done done).nodes.insert n.id n
        byValue := (draft body done done).byValue.insert use.operand n.id
        edges := (draft body done done).edges
        lastNode := (body.known done).length + 1 } := rfl
  refine Eq.trans same ?_
  rw [nodes, values, edges, last]
  rfl

-- One more use of a value from outside.
theorem draft_weighs (done : List Use) (position : Nat)
    (here : (body.outsiders done)[position]? = some use.operand) :
    (draft body done done).modifyNode (body.ids.length + position + 1)
        (fun n => { n with weight := n.weight + use.weight }) =
      draft body (done ++ [use]) done := by
  have again : use.operand ∈ body.known done := List.mem_append_right _ (List.mem_of_getElem? here)
  let more : Node → Node := fun n => { n with weight := n.weight + use.weight }
  have nodes : (draft body done done).nodes.modify (body.ids.length + position + 1) more =
      (draft body (done ++ [use]) done).nodes := by
    have outside := Table.map_modify (Node.tied (body.links done done)) more more
      (Table.numbered (body.drafted done)) (body.ids.length + position + 1) fun _ => rfl
    rw [Table.map_numbered, Table.modify_numbered, Table.map_numbered, ← body.drafted_again done use position here,
      ← body.links_later done use] at outside
    rw [draft, ← body.links_later done use]
    exact outside.symm
  have edges : (draft body done done).edges = (draft body (done ++ [use]) done).edges := by
    rw [draft, draft, body.links_later]
  have same : (draft body done done).modifyNode (body.ids.length + position + 1) more =
      { draft body done done with
        nodes := (draft body done done).nodes.modify (body.ids.length + position + 1) more
        edges := (draft body done done).edges
        byValue := Table.places (body.known done)
        lastNode := (body.known done).length } := rfl
  refine Eq.trans same ?_
  rw [nodes, edges, ← body.known_again done use again]
  rfl

-- A use of an instruction of the body.
theorem draft_holds (done : List Use) (within : use.operand ∈ body.ids) :
    draft body (done ++ [use]) done = draft body done done := by
  have again : use.operand ∈ body.known done := List.mem_append_left _ within
  rw [draft, draft, body.drafted_inside done use within, body.links_later, body.known_again done use again]

end Graph

namespace DataLinks

open LoopDeps.Graph

variable (body : Body) (once : body.ids.Nodup) (done : List Use) (inside : ∀ use ∈ done, use.user ≤ body.ids.length)
  (use : Use)

include once in
theorem producer_held (within : use.operand ∈ body.ids) :
    (producerOf body.func use.weight use.operand).run (draft body done done) =
      .ok (body.placeOf done use.operand) (draft body done done) := by
  have value := draft_value body once done done use.operand
  rw [if_pos ((body.mem_known done _).mpr (.inl within))] at value
  have bound : body.ids.idxOf use.operand < body.instrs.length := by
    simpa [Body.ids] using List.idxOf_lt_length_of_mem within
  have node := draft_node body done done (body.ids.idxOf use.operand)
  rw [body.drafted_instr done _ _ (List.getElem?_eq_getElem bound), Option.map_some,
    ← body.place_instr done _ within] at node
  have found := Edit.get_node_run _ _ _ node
  simp only [producerOf, EStateM.run_bind, EStateM.run_get, value, found]
  rfl

include once in
theorem producer_weighed (position : Nat) (here : (body.outsiders done)[position]? = some use.operand) :
    (producerOf body.func use.weight use.operand).run (draft body done done) =
      .ok (body.placeOf done use.operand)
        ((draft body done done).modifyNode (body.ids.length + position + 1)
          fun n => { n with weight := n.weight + use.weight }) := by
  have value := draft_value body once done done use.operand
  have again : use.operand ∈ body.known done := List.mem_append_right _ (List.mem_of_getElem? here)
  rw [if_pos again, body.place_outsider done position _ here] at value
  have node := draft_node body done done (body.ids.length + position)
  rw [body.drafted_outsider done _ _ here, Option.map_some] at node
  have found := Edit.get_node_run _ _ _ node
  have weighed := Edit.change_node_run _ (fun n => { n with weight := n.weight + use.weight }) _ ⟨_, node⟩
  have external : (Node.tied (body.links done done) (body.outsiderNode done position use.operand)).isExternal = true :=
    rfl
  rw [body.place_outsider done position _ here]
  simp only [producerOf, EStateM.run_bind, EStateM.run_get, value, found, external, if_true, weighed, EStateM.run_pure]

include once in
theorem producer_met (new : use.operand ∉ body.known done) :
    (producerOf body.func use.weight use.operand).run (draft body done done) =
      .ok ((body.known done).length + 1)
        ((draft body done done).withFresh.insertValueNode
          (Node.external ((draft body done done).lastNode + 1) use.operand (body.func.valueName use.operand)
            use.weight)) := by
  have value := draft_value body once done done use.operand
  rw [if_neg new] at value
  simp only [producerOf, EStateM.run_bind, EStateM.run_get, value, Edit.new_node_id_run, EStateM.run_modify,
    EStateM.run_pure]
  rfl

-- The operand is of the body, is known from outside, or is met now.
include once inside in
theorem producer_drafts :
    (producerOf body.func use.weight use.operand).run (draft body done done) =
      .ok (body.placeOf (done ++ [use]) use.operand) (draft body (done ++ [use]) done) := by
  by_cases again : use.operand ∈ body.known done
  · rw [body.place_later done use use.operand again]
    by_cases within : use.operand ∈ body.ids
    · rw [draft_holds body use done within]
      exact producer_held body once done use within
    · have outside : use.operand ∈ body.outsiders done := (List.mem_append.mp again).resolve_left within
      have here := List.getElem?_idxOf outside
      rw [← draft_weighs body use done _ here]
      exact producer_weighed body once done use _ here
  · rw [← draft_meets body use done inside again, body.place_new done use again]
    exact producer_met body once done use again

include once inside in
theorem operand_drafts (placed : 0 < use.user) (bound : use.user ≤ body.ids.length) :
    (linkOperand body.func use.user use.weight use.operand).run (draft body done done) =
      .ok () (draft body (done ++ [use]) (done ++ [use])) := by
  have source : ∃ n, (draft body (done ++ [use]) done).nodes.get? (body.placeOf (done ++ [use]) use.operand) = some n := by
    have member : use.operand ∈ body.known (done ++ [use]) := body.met_known _ use (by simp)
    have before := List.idxOf_lt_length_of_mem member
    rw [← body.drafted_length] at before
    exact ⟨_, by rw [Body.placeOf, draft_node, List.getElem?_eq_getElem before]; rfl⟩
  have user : ∃ n, (draft body (done ++ [use]) done).nodes.get? use.user = some n := by
    have before : use.user - 1 < body.instrs.length := by
      rw [Body.ids, List.length_map] at bound
      exact Nat.lt_of_lt_of_le (Nat.sub_lt placed Nat.one_pos) bound
    rw [← Nat.sub_add_cancel placed]
    exact ⟨_, by rw [draft_node, body.drafted_instr _ _ _ (List.getElem?_eq_getElem before)]; rfl⟩
  rw [linkOperand, Edit.run_bind_ok _ _ _ _ _ (producer_drafts body once done inside use),
    Edit.run_bind_ok _ _ _ _ _ (Edit.add_edge_run _ _ _ _ _ source user), EStateM.run_pure, draft_draws]

theorem user_bound (i : BodyInstr) (position : Nat) (here : body.instrs[position]? = some i) :
    position + 1 ≤ body.ids.length := by
  rw [Body.ids, List.length_map]
  exact (List.getElem?_eq_some_iff.mp here).1

include inside in
theorem inside_more (i : BodyInstr) (position : Nat) (here : body.instrs[position]? = some i) (operands : List ValueId) :
    ∀ use ∈ done ++ operands.map (Body.useOf i position), use.user ≤ body.ids.length := by
  intro use member
  rcases List.mem_append.mp member with before | new
  · exact inside use before
  · obtain ⟨operand, _, rfl⟩ := List.mem_map.mp new
    exact user_bound body i position here

include once inside in
theorem consumer_drafts (i : BodyInstr) (position : Nat) (here : body.instrs[position]? = some i) :
    (linkConsumer body.func (position + 1)).run (draft body done done) =
      .ok (Body.usesOf i position).length
        (draft body (done ++ Body.usesOf i position) (done ++ Body.usesOf i position)) := by
  have node : (draft body done done).nodes.get? (position + 1) =
      some (Node.tied (body.links done done) (nodeOf (position + 1) i)) := by
    rw [draft_node, body.drafted_instr _ _ _ here]
    rfl
  have defined : body.func.instr? (Node.tied (body.links done done) (nodeOf (position + 1) i)).value = some i.instr :=
    body.instr_defined i (List.mem_of_getElem? here)
  obtain ⟨next, ran, rfl⟩ := Edit.run_for_each i.instr.dataOperands (linkOperand body.func (position + 1) i.weight)
    (fun operands g => g = draft body (done ++ operands.map (Body.useOf i position))
      (done ++ operands.map (Body.useOf i position))) (by
      rintro operands operand rest _ split rfl
      refine ⟨_, operand_drafts body once _ (inside_more body done inside i position here operands)
        (Body.useOf i position operand) (Nat.succ_pos position) (user_bound body i position here), ?_⟩
      rw [List.map_append, List.map_singleton, List.append_assoc])
    (draft body done done) (by rw [List.map_nil, List.append_nil])
  have weight : (Node.tied (body.links done done) (nodeOf (position + 1) i)).weight = i.weight := rfl
  rw [linkConsumer, Edit.run_bind_ok _ _ _ _ _ (Edit.get_node_run _ _ _ node)]
  simp only [defined, weight]
  rw [Edit.run_bind_ok _ _ _ _ _ ran, EStateM.run_pure, Body.usesOf, List.length_map]

include once in
theorem consumers_draft (placed : List (BodyInstr × Nat))
    (here : ∀ entry ∈ placed, body.instrs[entry.2]? = some entry.1) (done : List Use)
    (inside : ∀ use ∈ done, use.user ≤ body.ids.length) :
    (linkConsumers body.func (placed.map fun entry => entry.2 + 1)).run (draft body done done) =
      .ok (placed.flatMap fun entry => Body.usesOf entry.1 entry.2).length
        (draft body (done ++ placed.flatMap fun entry => Body.usesOf entry.1 entry.2)
          (done ++ placed.flatMap fun entry => Body.usesOf entry.1 entry.2)) := by
  induction placed generalizing done with
  | nil =>
    rw [List.flatMap_nil, List.append_nil]
    rfl
  | cons entry rest ih =>
    have first := here entry List.mem_cons_self
    have ran := consumer_drafts body once done inside entry.1 entry.2 first
    have later := ih (fun other member => here other (List.mem_cons_of_mem _ member)) _
      (inside_more body done inside entry.1 entry.2 first entry.1.instr.dataOperands)
    rw [← Body.usesOf] at later
    rw [List.map_cons, linkConsumers, Edit.run_bind_ok _ _ _ _ _ ran, Edit.run_bind_ok _ _ _ _ _ later,
      EStateM.run_pure, List.flatMap_cons, List.length_append, List.append_assoc]

end DataLinks

namespace Graph

theorem fold_instrs (instrs : List BodyInstr) (loopId : Nat) :
    instrs.foldl addInstr (new loopId) =
      { new loopId with
        nodes := Table.numbered (instrs.mapIdx fun position i => nodeOf (position + 1) i)
        byValue := Table.places (instrs.map BodyInstr.id)
        lastNode := instrs.length } := by
  induction instrs using List.reverseRecOn with
  | nil => rfl
  | append_singleton before i ih =>
      have nodes := Table.numbered_concat (before.mapIdx fun position i => nodeOf (position + 1) i)
        (nodeOf (before.length + 1) i)
      have values := Table.places_concat (before.map BodyInstr.id) i.id
      rw [List.length_mapIdx] at nodes
      rw [List.length_map] at values
      rw [List.foldl_append, ih, List.mapIdx_concat, ← nodes, List.map_append, List.map_singleton, values,
        List.length_append]
      rfl

-- The instructions of a body, before anything is met.
theorem drafted_nil (body : Body) :
    (body.drafted []).map (Node.tied []) = body.instrs.mapIdx fun position i => nodeOf (position + 1) i := by
  have same : ∀ n ∈ body.instrs.mapIdx fun position i => nodeOf (position + 1) i, n.tied [] = n := by
    intro n member
    obtain ⟨position, _, rfl⟩ := List.mem_mapIdx.mp member
    exact Node.tied_bare [] _ (fun _ member => absurd member List.not_mem_nil) (node_of_bare _ _)
  rw [Body.drafted, Body.outsiders, List.map_nil, List.filter_nil, List.eraseDups_nil, List.mapIdx_nil,
    List.append_nil, List.map_congr_left same, List.map_id']

theorem of_body_draft (body : Body) (filled : body.instrs ≠ []) : ofBody body = .ok (draft body [] []) := by
  have size : (body.instrs.foldl addInstr (new body.loopId)).size ≠ 0 := by
    rw [placed_size _ _ (placed_fold body.instrs body.loopId)]
    exact fun empty => filled (List.length_eq_zero_iff.mp empty)
  have known : body.known [] = body.ids := List.append_nil _
  rw [ofBody, if_neg size, fold_instrs, draft, known, Body.ids, List.length_map]
  exact congrArg Except.ok (congrArg (fun nodes => Graph.mk _ (Table.numbered nodes) _ _ _ _ _ _) (drafted_nil body).symm)

end Graph

namespace Body

variable (body : Body)

theorem uses_operands : body.uses.map Use.operand = body.dataOperands := by
  have each : ∀ entry : BodyInstr × Nat, (usesOf entry.1 entry.2).map Use.operand = entry.1.instr.dataOperands :=
    fun entry => (List.map_map ..).trans (List.map_id' _)
  rw [uses, List.map_flatMap, dataOperands, ← List.zipIdx_map_fst 0 body.instrs, List.flatMap_map]
  simp only [List.zipIdx_map_fst, each]

theorem drafted_values (met : List Use) : (body.drafted met).map Node.value = body.known met := by
  have inside : (body.instrs.mapIdx fun position i => Graph.nodeOf (position + 1) i).map Node.value = body.ids :=
    List.ext_getElem (by simp [ids]) fun position _ _ => by simp [ids, Graph.nodeOf, Node.instruction]
  have outside : ((body.outsiders met).mapIdx (body.outsiderNode met)).map Node.value = body.outsiders met :=
    List.ext_getElem (by simp) fun position _ _ => by simp [outsiderNode, Node.external, Node.instruction]
  rw [drafted, List.map_append, inside, outside, known]

theorem block_ids (f : Func) (block : Block) :
    (blockInstrs f block).map BodyInstr.id = block.instrs.filter fun id => (f.instr? id).isSome := by
  rw [blockInstrs, List.map_filterMap, ← List.filterMap_eq_filter]
  refine List.filterMap_congr fun id _ => ?_
  cases defined : f.instr? id <;> simp [Option.guard, defined]

-- An instruction is listed in one block only, and a block is in the body once.
theorem ids_nodup (listed : (body.func.blocks.flatMap Block.instrs).Nodup) (blocks : body.blocks.Nodup) :
    body.ids.Nodup := by
  obtain ⟨each, apart⟩ := List.nodup_flatMap.mp listed
  have ids : body.ids = (body.blocks.filterMap body.func.block?).flatMap fun block =>
      block.instrs.filter fun id => (body.func.instr? id).isSome := by
    rw [Body.ids, instrs, List.map_flatMap]
    exact List.flatMap_congr fun block _ => block_ids body.func block
  rw [ids, List.nodup_flatMap]
  refine ⟨?_, ?_⟩
  · intro block member
    obtain ⟨id, _, found⟩ := List.mem_filterMap.mp member
    exact (each block (List.mem_of_getElem? found)).filter _
  · rw [List.pairwise_filterMap]
    refine blocks.imp fun {a b} different first here second there id inFirst inSecond => ?_
    obtain ⟨aBound, rfl⟩ := List.getElem?_eq_some_iff.mp here
    obtain ⟨bBound, rfl⟩ := List.getElem?_eq_some_iff.mp there
    have inFirst := (List.mem_filter.mp inFirst).1
    have inSecond := (List.mem_filter.mp inSecond).1
    rcases Nat.lt_or_gt_of_ne different with before | after
    · exact List.pairwise_iff_getElem.mp apart a b aBound bBound before inFirst inSecond
    · exact List.pairwise_iff_getElem.mp apart b a bBound aBound after inSecond inFirst

end Body

namespace DataLinks

open LoopDeps.Graph

theorem consumers_placed (body : Body) (start : Graph) (placed : Placed body.instrs start) :
    consumers start = body.instrs.zipIdx.map fun entry => entry.2 + 1 := by
  rw [consumers, placed.nodes, List.filter_eq_self.mpr, List.mapIdx_eq_zipIdx_map, List.map_map]
  · rfl
  · intro n member
    obtain ⟨position, _, rfl⟩ := List.mem_mapIdx.mp member
    rfl

-- The edges follow the uses, and no value from outside has a second node or an idle one.
theorem links_follow_uses (body : Body) (listed : (body.func.blocks.flatMap Block.instrs).Nodup)
    (blocks : body.blocks.Nodup) (filled : body.instrs ≠ []) :
    ∃ start, ofBody body = .ok start ∧
      (pass body).run start = .ok (!body.uses.isEmpty) (draft body body.uses body.uses) ∧
      (draft body body.uses body.uses).nodes.values.map Node.value = body.known body.uses ∧
      (body.known body.uses).Nodup ∧
      ∀ value, value ∈ body.outsiders body.uses ↔ value ∈ body.dataOperands ∧ value ∉ body.ids := by
  have once := body.ids_nodup listed blocks
  have start := of_body_draft body filled
  have ran := consumers_draft body once body.instrs.zipIdx
    (fun _ member => List.mem_zipIdx_iff_getElem?.mp member) [] (fun _ member => absurd member List.not_mem_nil)
  rw [List.nil_append, ← consumers_placed body _ (of_body_placed body _ start)] at ran
  refine ⟨_, start, ?_, ?_, body.known_nodup once _, fun value => ?_⟩
  · have anyUse : (body.uses.length != 0) = !body.uses.isEmpty := by
      cases body.uses <;> rfl
    simp only [pass, EStateM.run_bind, EStateM.run_get, ran, EStateM.run_pure]
    rw [← anyUse]
    rfl
  · rw [draft, Table.values_numbered, List.map_map]
    exact body.drafted_values body.uses
  · rw [Body.mem_outsiders, Body.uses_operands]

-- A value that needs itself and a later one, an operand taken twice, and an address that nothing but a store has.
def looping : Func :=
  let block := (Func.new "loop").addBlock "body" 3.0
  let address := (block.1.addArgument "p" .ptr).1
  let one := (address.constant "1").1
  let merge := (one.push ⟨some "m", "phi", .int 32, [2, 3, 1], [], 0⟩).1
  let sum := (merge.push ⟨some "s", "add", .int 32, [2, 1], [], 0⟩).1
  (sum.push ⟨none, "store", .void, [3, 0], [], 0⟩).1

theorem looping_links :
    (looping.blocks.flatMap Block.instrs).Nodup ∧
      (∃ start, ofBody ⟨0, looping, [0]⟩ = .ok start ∧ ∃ g, (pass ⟨0, looping, [0]⟩).run start = .ok true g ∧
        g.nodes.values.map Node.value = [2, 3, 4, 1] ∧
        g.edges.values.map (fun e => (e.id, e.source, e.target)) =
          [(1, 1, 1), (2, 2, 1), (3, 4, 1), (4, 1, 2), (5, 4, 2), (6, 2, 3)]) := by
  have listed : (looping.blocks.flatMap Block.instrs).Nodup := by decide
  have ids : Body.ids ⟨0, looping, [0]⟩ = [2, 3, 4] := by decide
  have filled : Body.instrs ⟨0, looping, [0]⟩ ≠ [] := fun empty => by
    rw [Body.ids, empty] at ids
    cases ids
  obtain ⟨start, built, ran, values, _⟩ := links_follow_uses ⟨0, looping, [0]⟩ listed (by decide) filled
  refine ⟨listed, start, built, _, ran, values.trans (by decide), ?_⟩
  rw [draft, Table.values_numbered]
  decide

end DataLinks

end LoopDeps
