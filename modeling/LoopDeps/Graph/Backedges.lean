import LoopDeps.Graph.Basic
set_option autoImplicit false

/- The edges that close a cycle in a depth-first search. The search starts from every node not yet
   entered, in id order, and follows outgoing edges in list order; without the marked edges the graph
   has no cycle. -/
namespace LoopDeps.Backedges

-- A node on the path from the root, and its outgoing edges still to be examined.
structure Frame where
  node : NodeId
  pending : List EdgeId
deriving DecidableEq, Repr

structure Search where
  roots : List NodeId
  -- The innermost frame first.
  stack : List Frame
  entered : List NodeId
  examined : List EdgeId
  marked : List EdgeId
  -- A target that is no node; the search stops there.
  missing : Option NodeId
deriving DecidableEq, Repr

namespace Search

def start (g : Graph) : Search := ⟨g.nodes.keys, [], [], [], [], none⟩

def onStack (s : Search) (id : NodeId) : Bool := s.stack.any fun frame => frame.node == id

def enter (g : Graph) (s : Search) (id : NodeId) : Search :=
  match g.nodes.get? id with
  | none => { s with missing := some id }
  | some n => { s with stack := ⟨id, n.outgoing⟩ :: s.stack, entered := s.entered ++ [id] }

def examine (g : Graph) (s : Search) (id : EdgeId) : Search :=
  let s := { s with examined := s.examined ++ [id] }
  match g.edges.get? id with
  | none => s
  | some e =>
      if s.marked.contains id then s
      else if s.onStack e.target then { s with marked := s.marked ++ [id] }
      else if s.entered.contains e.target then s
      else s.enter g e.target

def step (g : Graph) (s : Search) : Search :=
  match s.stack with
  | [] =>
      match s.roots with
      | [] => s
      | root :: rest =>
          let s := { s with roots := rest }
          if s.entered.contains root then s else s.enter g root
  | ⟨_, []⟩ :: below => { s with stack := below }
  | ⟨node, id :: pending⟩ :: below => examine g { s with stack := ⟨node, pending⟩ :: below } id

def finished (s : Search) : Bool := s.missing.isSome || (s.stack.isEmpty && s.roots.isEmpty)

def run (g : Graph) : Nat → Search → Search
  | 0, s => s
  | fuel + 1, s => if s.finished then s else run g fuel (s.step g)

end Search

-- Each node is a root once and leaves the stack once, and each listing is examined once.
def stepBound (g : Graph) : Nat :=
  2 * g.size + (g.nodes.values.flatMap Node.outgoing).length

def search (g : Graph) : Search := Search.run g (stepBound g) (Search.start g)

def markedFrom (g : Graph) (s : Search) (id : NodeId) : List Edge :=
  (g.edgesOf s.marked).filter fun e => e.source == id

def markedInto (g : Graph) (s : Search) (id : NodeId) : List Edge :=
  (g.edgesOf s.marked).filter fun e => e.target == id

-- The graph with the marks of a search in place of all earlier ones.
def annotate (g : Graph) (s : Search) : Graph :=
  { g with
    nodes := g.nodes.map fun n =>
      { n with
        visited := s.entered.contains n.id
        backedgesOut := (markedFrom g s n.id).length
        backedgesIn := (markedInto g s n.id).length }
    edges := g.edges.map fun e => { e with backedge := s.marked.contains e.id } }

-- Whether an edge was marked.
def pass : Edit Bool := do
  let g ← get
  let s := search g
  set (annotate g s)
  match s.missing with
  | some id => Edit.missing (.node id)
  | none => pure (!s.marked.isEmpty)

end LoopDeps.Backedges
