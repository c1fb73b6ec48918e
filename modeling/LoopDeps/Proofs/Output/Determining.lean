import LoopDeps.Graph.Construct
import LoopDeps.Graph.Dot
import LoopDeps.Proofs.Output.Rows
set_option autoImplicit false

/- What the record of a finished graph tells of it. No row has the id of its node, but every forward edge names both
   of its ends, each in the row of the other one. So the ids named in the rows are those of the rows with edges, and
   both come in increasing order. -/
namespace LoopDeps

namespace End

def opposite : End → End
  | .source => .target
  | .target => .source

end End

namespace Graph

-- The forward edges at one end of a node, in their order, each by its other end and its kind.
def linksAt (g : Graph) (side : End) (id : NodeId) : List (NodeId × Dependence) :=
  ((g.nodes.get? id).elim [] (g.forwardAt side)).map fun e => (e.endAt side.opposite, e.kind)

-- The nodes with a forward edge.
def joined (g : Graph) : List NodeId :=
  g.nodes.keys.filter fun id => !(g.linksAt .source id).isEmpty || !(g.linksAt .target id).isEmpty

theorem mem_forward_at (g : Graph) (mirrored : g.Mirrored) (side : End) (key : NodeId) (n : Node)
    (node : g.nodes.get? key = some n) (e : Edge) :
    e ∈ g.forwardAt side n ↔ e ∈ g.forwardEdges ∧ e.endAt side = key := by
  rw [forwardAt, forwardEdges, List.mem_filter, List.mem_filter, mem_edges_at g mirrored side key n node,
    mem_edge_values g mirrored]
  constructor
  · rintro ⟨⟨ends, found⟩, forward⟩
    exact ⟨⟨found, forward⟩, ends⟩
  · rintro ⟨⟨found, forward⟩, ends⟩
    exact ⟨⟨ends, found⟩, forward⟩

theorem links_of_node (g : Graph) (side : End) (id : NodeId) (n : Node) (node : g.nodes.get? id = some n) :
    g.linksAt side id = (g.forwardAt side n).map fun e => (e.endAt side.opposite, e.kind) := by
  rw [linksAt, node, Option.elim_some]

theorem forward_end_node (g : Graph) (mirrored : g.Mirrored) (side : End) (e : Edge) (forward : e ∈ g.forwardEdges) :
    ∃ n, g.nodes.get? (e.endAt side) = some n ∧ e ∈ g.forwardAt side n := by
  have found := (mem_edge_values g mirrored e).mp (List.mem_of_mem_filter forward)
  obtain ⟨n, node, _⟩ := mirrored.listed side e.id e found
  exact ⟨n, node, (mem_forward_at g mirrored side _ n node e).mpr ⟨forward, rfl⟩⟩

theorem mem_joined (g : Graph) (mirrored : g.Mirrored) (id : NodeId) :
    id ∈ g.joined ↔ ∃ e ∈ g.forwardEdges, ∃ side : End, e.endAt side = id := by
  have filled : ∀ side, (!(g.linksAt side id).isEmpty) = true ↔ ∃ n, g.nodes.get? id = some n ∧
      g.forwardAt side n ≠ [] := by
    intro side
    unfold linksAt
    cases g.nodes.get? id <;> simp
  rw [joined, List.mem_filter, Bool.or_eq_true, filled, filled]
  constructor
  · rintro ⟨_, ⟨n, node, filled⟩ | ⟨n, node, filled⟩⟩
    · obtain ⟨e, listed⟩ := List.exists_mem_of_ne_nil _ filled
      obtain ⟨forward, ends⟩ := (mem_forward_at g mirrored .source id n node e).mp listed
      exact ⟨e, forward, .source, ends⟩
    · obtain ⟨e, listed⟩ := List.exists_mem_of_ne_nil _ filled
      obtain ⟨forward, ends⟩ := (mem_forward_at g mirrored .target id n node e).mp listed
      exact ⟨e, forward, .target, ends⟩
  · rintro ⟨e, forward, side, rfl⟩
    obtain ⟨n, node, listed⟩ := forward_end_node g mirrored side e forward
    refine ⟨Table.mem_keys.mpr (by rw [node]; rfl), ?_⟩
    cases side with
    | source => exact Or.inl ⟨n, node, List.ne_nil_of_mem listed⟩
    | target => exact Or.inr ⟨n, node, List.ne_nil_of_mem listed⟩

theorem joined_sorted (g : Graph) : g.joined.Pairwise (· < ·) := by
  have keys : g.nodes.keys.Pairwise (· < ·) := List.pairwise_map.mpr g.nodes.increasing
  exact keys.filter _

end Graph

namespace Record

open LoopDeps.Graph

namespace Row

def links (row : Row) : End → List (NodeId × Dependence)
  | .source => row.outs.map Entry.link
  | .target => row.ins.map Entry.link

def isJoined (row : Row) : Bool := !(row.links .source).isEmpty || !(row.links .target).isEmpty

end Row

-- The ids that the edges of some rows name.
def named (rows : List Row) : List NodeId :=
  rows.flatMap fun row => (row.links .source ++ row.links .target).map Prod.fst

theorem row_of_links (g : Graph) (side : End) (n : Node) :
    (rowOf g n).links side = (g.forwardAt side n).map fun e => (e.endAt side.opposite, e.kind) := by
  cases side <;> exact List.map_map

theorem links_of_row (g : Graph) (indexed : g.Indexed) (side : End) (n : Node) (member : n ∈ g.nodes.values) :
    g.linksAt side n.id = (rowOf g n).links side := by
  rw [row_of_links, links_of_node g side n.id n ((mem_node_values g indexed n).mp member)]

theorem mem_named (g : Graph) (well : g.WellFormed) (id : NodeId) :
    id ∈ named (contents g).rows ↔ ∃ e ∈ g.forwardEdges, ∃ side : End, e.endAt side = id := by
  have inRow : ∀ n, id ∈ ((rowOf g n).links .source ++ (rowOf g n).links .target).map Prod.fst ↔
      ∃ side, ∃ e ∈ g.forwardAt side n, e.endAt side.opposite = id := by
    intro n
    simp only [List.map_append, List.mem_append, row_of_links, List.map_map, List.mem_map, Function.comp_apply]
    constructor
    · rintro (⟨e, listed, ends⟩ | ⟨e, listed, ends⟩)
      · exact ⟨.source, e, listed, ends⟩
      · exact ⟨.target, e, listed, ends⟩
    · rintro ⟨side, e, listed, ends⟩
      cases side with
      | source => exact Or.inl ⟨e, listed, ends⟩
      | target => exact Or.inr ⟨e, listed, ends⟩
  simp only [named, contents, List.flatMap_map, List.mem_flatMap, inRow]
  constructor
  · rintro ⟨n, member, side, e, listed, ends⟩
    have node := (mem_node_values g well.indexed n).mp member
    exact ⟨e, ((mem_forward_at g well.mirrored side n.id n node e).mp listed).1, side.opposite, ends⟩
  · rintro ⟨e, forward, side, ends⟩
    obtain ⟨n, node, listed⟩ := forward_end_node g well.mirrored side.opposite e forward
    refine ⟨n, Table.mem_values.mpr ⟨_, node⟩, side.opposite, e, listed, ?_⟩
    cases side <;> exact ends

-- The rows with edges, each with the id of its node.
def joinedRows (g : Graph) : List (NodeId × Row) :=
  (g.nodes.values.map fun n => (n.id, rowOf g n)).filter fun labelled => labelled.2.isJoined

theorem joined_rows_ids (g : Graph) (indexed : g.Indexed) : (joinedRows g).map Prod.fst = g.joined := by
  rw [joinedRows, List.filter_map, List.map_map, joined, ← AddressChains.ids_eq_keys g indexed, List.filter_map]
  refine congrArg (List.map Node.id) (List.filter_congr fun n member => ?_)
  simp only [Function.comp_apply, Row.isJoined, links_of_row g indexed _ n member]

theorem joined_rows_rows (g : Graph) : (joinedRows g).map Prod.snd = (contents g).rows.filter Row.isJoined := by
  rw [joinedRows, List.filter_map, List.map_map, contents, List.filter_map]
  rfl

theorem links_of_joined_row (g : Graph) (indexed : g.Indexed) (side : End) (id : NodeId) (row : Row)
    (member : (id, row) ∈ joinedRows g) : g.linksAt side id = row.links side := by
  obtain ⟨n, inTable, same⟩ := List.mem_map.mp (List.mem_of_mem_filter member)
  cases same
  exact links_of_row g indexed side n inTable

theorem links_off_joined (g : Graph) (side : End) (id : NodeId) (apart : id ∉ g.joined) : g.linksAt side id = [] := by
  by_contra otherwise
  have inTable : id ∈ g.nodes.keys := by
    refine Table.mem_keys.mpr (Option.isSome_iff_ne_none.mpr fun absent => otherwise ?_)
    rw [linksAt, absent]
    rfl
  refine apart (List.mem_filter.mpr ⟨inTable, ?_⟩)
  cases side <;> simp [otherwise]

-- The same text has the same rows. Their ids are the ones they name, so that they are the same ones too.
theorem joined_rows_same (g h : Graph) (well : g.WellFormed) (also : h.WellFormed)
    (same : (contents g).rows = (contents h).rows) : joinedRows g = joinedRows h := by
  have ids : g.joined = h.joined := by
    have members : ∀ id, id ∈ g.joined ↔ id ∈ h.joined := by
      intro id
      rw [mem_joined g well.mirrored, ← mem_named g well, same, mem_named h also, mem_joined h also.mirrored]
    have once : ∀ k : Graph, k.joined.Nodup := fun k => (joined_sorted k).imp Nat.ne_of_lt
    refine ((List.perm_ext_iff_of_nodup (once g) (once h)).mpr members).eq_of_pairwise ?_ (joined_sorted g)
      (joined_sorted h)
    exact fun a b _ _ less more => absurd more (Nat.lt_asymm less)
  have unzipped : ∀ k : Graph, joinedRows k = ((joinedRows k).map Prod.fst).zip ((joinedRows k).map Prod.snd) :=
    fun k => by rw [← List.unzip_fst, ← List.unzip_snd, List.zip_unzip]
  rw [unzipped g, unzipped h, joined_rows_ids g well.indexed, joined_rows_ids h also.indexed, joined_rows_rows,
    joined_rows_rows, ids, same]

theorem record_determines_forward (first second : Body) (pdom other : ControlLinks.PostDominates) (g h : Graph)
    (built : construct first pdom = .ok g) (alsoBuilt : construct second other = .ok h)
    (same : Record.render g = Record.render h) :
    g.size = h.size ∧ g.joined = h.joined ∧ ∀ side id, g.linksAt side id = h.linksAt side id := by
  have well := (construct_finished first pdom g built).well
  have also := (construct_finished second other h alsoBuilt).well
  have contained : contents g = contents h := by
    have read := read_render g
    rw [same, read_render h] at read
    exact (Option.some.inj read).symm
  have rows := joined_rows_same g h well also (congrArg Contents.rows contained)
  have ids : g.joined = h.joined := by
    rw [← joined_rows_ids g well.indexed, rows, joined_rows_ids h also.indexed]
  refine ⟨congrArg Contents.size contained, ids, fun side id => ?_⟩
  by_cases member : id ∈ g.joined
  · rw [← joined_rows_ids g well.indexed] at member
    obtain ⟨⟨_, row⟩, inRows, rfl⟩ := List.mem_map.mp member
    rw [links_of_joined_row g well.indexed side _ row inRows,
      links_of_joined_row h also.indexed side _ row (rows ▸ inRows)]
  · rw [links_off_joined g side id member, links_off_joined h side id (ids ▸ member)]

-- A pointer that goes on in steps, and one computation at each step.
def stepping (opcode : String) : Func :=
  let block := ((Func.new "step").addBlock "loop" 1.0).1
  let size := (block.constant "4").1
  let phi := (size.push ⟨some "p", "phi", .ptr, [2], [], 0⟩).1
  let next := (phi.push ⟨some "q", "gep", .ptr, [1, 0], [], 0⟩).1
  (next.push ⟨some opcode, opcode, .int 32, [1, 2], [], 0⟩).1

def steppingBody (opcode : String) : Body := ⟨0, stepping opcode, [0]⟩

def steppingCheck : Bool :=
  match construct (steppingBody "add") fun _ _ => false, construct (steppingBody "mul") fun _ _ => false with
  | .ok g, .ok h =>
      Record.render g == Record.render h && Dot.render g != Dot.render h && g.joined == [1, 3, 4, 5, 6, 7, 8]
  | _, _ => false

-- Two graphs that are not the same, with one record.
theorem opcodes_not_recorded :
    ∃ g h, construct (steppingBody "add") (fun _ _ => false) = .ok g ∧
      construct (steppingBody "mul") (fun _ _ => false) = .ok h ∧ Record.render g = Record.render h ∧
      Dot.render g ≠ Dot.render h ∧ h.joined = [1, 3, 4, 5, 6, 7, 8] ∧ ∀ side id, g.linksAt side id = h.linksAt side id := by
  have check : steppingCheck = true := by decide +kernel
  unfold steppingCheck at check
  split at check
  · rename_i g h built alsoBuilt
    simp only [Bool.and_eq_true, beq_iff_eq, bne_iff_ne] at check
    obtain ⟨⟨same, different⟩, ids⟩ := check
    obtain ⟨_, joined, links⟩ := record_determines_forward _ _ _ _ g h built alsoBuilt same
    exact ⟨g, h, built, alsoBuilt, same, different, joined ▸ ids, links⟩
  · cases check

end Record

end LoopDeps
