import LoopDeps.Proofs.Graph.Marking
import LoopDeps.Proofs.Graph.Recursing
set_option autoImplicit false

/- What marking the backedges leaves behind. Apart from the marks and what is counted of them the graph is as it was,
   and as the search sees none of that, a second marking comes to the same. -/
namespace LoopDeps

namespace Graph

-- The graph without marks and counts.
def cleared (g : Graph) : Graph :=
  { g with
    nodes := g.nodes.map fun n => { n with visited := false, backedgesIn := 0, backedgesOut := 0 }
    edges := g.edges.map fun e => { e with backedge := false } }

-- The counts at a node are those of its listings.
structure Tallied (g : Graph) (n : Node) : Prop where
  visited : n.visited = true
  backedgesOut : n.backedgesOut = (g.outgoing n).countP Edge.backedge
  backedgesIn : n.backedgesIn = (g.incoming n).countP Edge.backedge
  outBound : n.backedgesOut ≤ n.outgoing.length
  inBound : n.backedgesIn ≤ n.incoming.length
  forwardOut : n.forwardOutCount = (g.forwardOutgoing n).length
  forwardIn : n.forwardInCount = (g.forwardIncoming n).length

theorem tallied_of_finished (g : Graph) (finished : g.Finished) (key : NodeId) (n : Node)
    (node : g.nodes.get? key = some n) (visited : n.visited = true) : g.Tallied n := by
  have out : (g.forwardOutgoing n).length + n.backedgesOut = n.outgoing.length :=
    forward_count g finished .source key n node
  have into : (g.forwardIncoming n).length + n.backedgesIn = n.incoming.length :=
    forward_count g finished .target key n node
  refine ⟨visited, finished.counted .source key n node, finished.counted .target key n node, ?_, ?_, ?_, ?_⟩
  · exact out ▸ Nat.le_add_left _ _
  · exact into ▸ Nat.le_add_left _ _
  · rw [Node.forwardOutCount, ← out, Nat.add_sub_cancel]
  · rw [Node.forwardInCount, ← into, Nat.add_sub_cancel]

end Graph

namespace Backedges

open Search

-- An edge with what a search tells about it.
def flagged (s : Search) (e : Edge) : Edge := { e with backedge := s.marked.contains e.id }

theorem annotate_cleared (g : Graph) (s : Search) : (annotate g s).cleared = g.cleared := by
  simp only [Graph.cleared, annotate, Table.map_map]

theorem search_annotate (g : Graph) (s : Search) : search (annotate g s) = search g :=
  search_same g (annotate g s) (Table.map_map (noted g s) Node.outgoing g.nodes)
    (Table.map_map (flagged s) Edge.target g.edges)

theorem annotate_again (g : Graph) (s : Search) : annotate (annotate g s) s = annotate g s := by
  have told : noted (annotate g s) s = noted g s := by
    refine noted_same g (annotate g s) s fun side => ?_
    cases side <;> exact Table.map_map (flagged s) _ g.edges
  have nodes : (annotate g s).nodes.map (noted (annotate g s) s) = (annotate g s).nodes := by
    rw [told]
    exact Table.map_map (noted g s) (noted g s) g.nodes
  have edges : (annotate g s).edges.map (flagged s) = (annotate g s).edges :=
    Table.map_map (flagged s) (flagged s) g.edges
  show { annotate g s with
      nodes := (annotate g s).nodes.map (noted (annotate g s) s)
      edges := (annotate g s).edges.map (flagged s) } = annotate g s
  rw [nodes, edges]

theorem visited_annotate (g : Graph) (well : g.WellFormed) (key : NodeId) (marked : Node)
    (found : (annotate g (search g)).nodes.get? key = some marked) : marked.visited = true := by
  rw [get_annotate_node] at found
  obtain ⟨n, node, rfl⟩ := Option.map_eq_some_iff.mp found
  have entered : key ∈ (search g).entered :=
    (entered_perm g well.mirrored).mem_iff.mpr (Table.mem_keys.mpr (by rw [node]; rfl))
  rw [← well.indexed.nodeKeys key n node] at entered
  exact List.contains_iff_mem.mpr entered

-- Whatever marks and counts a graph comes with.
theorem marking_settles (g : Graph) (well : g.WellFormed) :
    ∃ found marked, pass.run g = .ok found marked ∧ marked.cleared = g.cleared ∧
      (∀ key n, marked.nodes.get? key = some n → marked.Tallied n) ∧ pass.run marked = .ok found marked := by
  have finished := annotate_finished g well
  have again := pass_run (annotate g (search g)) finished.well.mirrored
  rw [search_annotate, annotate_again] at again
  refine ⟨_, _, pass_run g well.mirrored, annotate_cleared g (search g), ?_, again⟩
  exact fun key n node => Graph.tallied_of_finished _ finished key n node (visited_annotate g well key n node)

-- Two nodes that feed each other, with marks and counts that have nothing to do with them.
def staleTwist : Graph :=
  { twist with
    nodes := twist.nodes.map fun n => { n with visited := true, backedgesIn := 7, backedgesOut := 5 }
    edges := twist.edges.map fun e => { e with backedge := true } }

theorem stale_twist_settles :
    staleTwist.WellFormed ∧ ∃ marked n, pass.run staleTwist = .ok true marked ∧ marked.cleared = twist.cleared ∧
      marked.nodes.get? 2 = some n ∧ marked.Tallied n ∧ n.outgoing = [2, 3] ∧ pass.run marked = .ok true marked := by
  have well : staleTwist.WellFormed := by
    refine Graph.well_formed_of_changes twist staleTwist
      (fun _ n => { n with visited := true, backedgesIn := 7, backedgesOut := 5 }) (fun e => { e with backedge := true })
      twist_well_formed (fun key => Table.get_map _ twist.nodes key) (fun id => Table.get_map _ twist.edges id)
      (fun _ _ => rfl) (fun _ n side => ?_) (fun _ => rfl) (fun e side => ?_) rfl rfl rfl rfl
    · cases side <;> rfl
    · cases side <;> rfl
  obtain ⟨found, marked, ran, cleared, tallied, again⟩ := marking_settles staleTwist well
  cases ran.symm.trans (pass_run staleTwist well.mirrored)
  exact ⟨well, _, _, ran, cleared, rfl, tallied 2 _ rfl, rfl, again⟩

end Backedges

end LoopDeps
