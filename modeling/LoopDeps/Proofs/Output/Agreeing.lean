import LoopDeps.Proofs.Output.Determining
import LoopDeps.Proofs.Output.Statements
set_option autoImplicit false

/- The drawing, the rows with the edges out and the rows with the edges in show the same edges of a finished graph,
   and these are its forward edges. -/
namespace LoopDeps

namespace Graph

-- An edge as the outputs show it.
def shownAs (e : Edge) : NodeId × NodeId × Dependence := (e.source, e.target, e.kind)

theorem shown_as_at (g : Graph) (well : g.WellFormed) (side : End) (n : Node) (member : n ∈ g.nodes.values) (e : Edge)
    (listed : e ∈ g.forwardAt side n) : e.endAt side = n.id := by
  have node := (mem_node_values g well.indexed n).mp member
  exact ((mem_edges_at g well.mirrored side n.id n node e).mp (List.mem_of_mem_filter listed)).1

end Graph

namespace Record

open LoopDeps.Graph

-- The edges that rows list, when the rows are those of the nodes `ids`.
def outLinks (ids : List NodeId) (rows : List Row) : List (NodeId × NodeId × Dependence) :=
  (ids.zip rows).flatMap fun labelled => labelled.2.outs.map fun entry => (labelled.1, entry.other, entry.kind)

def inLinks (ids : List NodeId) (rows : List Row) : List (NodeId × NodeId × Dependence) :=
  (ids.zip rows).flatMap fun labelled => labelled.2.ins.map fun entry => (entry.other, labelled.1, entry.kind)

theorem rows_labelled (g : Graph) (indexed : g.Indexed) :
    g.nodes.keys.zip (contents g).rows = g.nodes.values.map fun n => (n.id, rowOf g n) := by
  rw [← AddressChains.ids_eq_keys g indexed, contents, List.zip_map']

theorem out_links_shown (g : Graph) (well : g.WellFormed) :
    outLinks g.nodes.keys (contents g).rows = (g.nodes.values.flatMap (g.forwardAt .source)).map shownAs := by
  rw [outLinks, rows_labelled g well.indexed, List.flatMap_map, List.map_flatMap]
  refine List.flatMap_congr fun n member => ?_
  rw [rowOf, List.map_map]
  refine List.map_congr_left fun e listed => ?_
  have source : e.source = n.id := shown_as_at g well .source n member e listed
  rw [shownAs, source]
  rfl

theorem in_links_shown (g : Graph) (well : g.WellFormed) :
    inLinks g.nodes.keys (contents g).rows = (g.nodes.values.flatMap (g.forwardAt .target)).map shownAs := by
  rw [inLinks, rows_labelled g well.indexed, List.flatMap_map, List.map_flatMap]
  refine List.flatMap_congr fun n member => ?_
  rw [rowOf, List.map_map]
  refine List.map_congr_left fun e listed => ?_
  have target : e.target = n.id := shown_as_at g well .target n member e listed
  rw [shownAs, target]
  rfl

-- A count is a difference that is not cut off, and it is the number of edges after it.
theorem counts_right (g : Graph) (finished : g.Finished) (n : Node) (member : n ∈ g.nodes.values) :
    n.backedgesOut ≤ n.outgoing.length ∧ n.backedgesIn ≤ n.incoming.length ∧
      (rowOf g n).outCount = (rowOf g n).outs.length ∧ (rowOf g n).inCount = (rowOf g n).ins.length := by
  have node := (mem_node_values g finished.well.indexed n).mp member
  have outs : (g.forwardAt .source n).length + n.backedgesOut = n.outgoing.length :=
    forward_count g finished .source n.id n node
  have ins : (g.forwardAt .target n).length + n.backedgesIn = n.incoming.length :=
    forward_count g finished .target n.id n node
  simp only [rowOf, List.length_map, Node.forwardOutCount, Node.forwardInCount]
  omega

end Record

namespace Graph

-- What the two outputs of a graph show, read from their texts alone.
structure Agreeing (g : Graph) (drawing : List Dot.Statement) (record : Record.Contents) : Prop where
  drawn : Dot.read? (Dot.render g) = some drawing
  recorded : Record.read? (Record.render g) = some record
  -- One row for each node.
  rows : record.rows.length = g.nodes.keys.length
  statements : (Dot.edges drawing).Perm (g.forwardEdges.map shownAs)
  outs : (Record.outLinks g.nodes.keys record.rows).Perm (g.forwardEdges.map shownAs)
  ins : (Record.inLinks g.nodes.keys record.rows).Perm (g.forwardEdges.map shownAs)
  counts : ∀ row ∈ record.rows, row.outCount = row.outs.length ∧ row.inCount = row.ins.length
  counters : ∀ n ∈ g.nodes.values, n.backedgesOut ≤ n.outgoing.length ∧ n.backedgesIn ≤ n.incoming.length

theorem outputs_agree (body : Body) (pdom : ControlLinks.PostDominates) (g : Graph)
    (built : construct body pdom = .ok g) : ∃ drawing record, g.Agreeing drawing record := by
  have finished := construct_finished body pdom g built
  have well := finished.well
  refine ⟨Dot.drawn g, Record.contents g, Dot.read_render g, Record.read_render g, ?_, ?_, ?_, ?_, ?_, ?_⟩
  · rw [Record.contents, List.length_map, ← AddressChains.ids_eq_keys g well.indexed, List.length_map]
  · rw [Dot.edges_of_drawn]
    exact (forward_listed_once g well .source).map shownAs
  · rw [Record.out_links_shown g well]
    exact (forward_listed_once g well .source).map shownAs
  · rw [Record.in_links_shown g well]
    exact (forward_listed_once g well .target).map shownAs
  · intro row member
    obtain ⟨n, inTable, rfl⟩ := List.mem_map.mp member
    exact (Record.counts_right g finished n inTable).2.2
  · intro n member
    have right := Record.counts_right g finished n member
    exact ⟨right.1, right.2.1⟩

def steppingShown : List (NodeId × NodeId × Dependence) :=
  [(1, 5, .data), (4, 6, .data), (1, 3, .data), (5, 3, .data), (8, 7, .data), (7, 6, .data), (6, 5, .data)]

def steppingDrawn : Bool :=
  match construct (Record.steppingBody "add") fun _ _ => false with
  | .ok g => g.edges.values.countP Edge.backedge == 1 && g.forwardEdges.map shownAs == steppingShown
  | .error _ => false

-- A loop whose address goes round: the edge back into its first instruction is shown nowhere.
theorem stepping_agrees :
    ∃ g drawing record, construct (Record.steppingBody "add") (fun _ _ => false) = .ok g ∧
      g.Agreeing drawing record ∧ g.edges.values.countP Edge.backedge = 1 ∧
      (Dot.edges drawing).Perm steppingShown := by
  have check : steppingDrawn = true := by decide +kernel
  unfold steppingDrawn at check
  split at check
  · rename_i g built
    simp only [Bool.and_eq_true, beq_iff_eq] at check
    obtain ⟨drawing, record, agreeing⟩ := outputs_agree _ _ g built
    exact ⟨g, drawing, record, built, agreeing, check.1, check.2 ▸ agreeing.statements⟩
  · cases check

end Graph

end LoopDeps
