import LoopDeps.Graph.Basic
set_option autoImplicit false

/- The graph as a drawing: one declaration per node, then every forward edge. -/
namespace LoopDeps.Dot

def shape (category : Category) (numType : NumType) : String :=
  match category, numType with
  | .compute, .integer => "oval"
  | .compute, .float => "doublecircle"
  | .compute, .vector => "triplecircle"
  | .memory, .integer => "octagon"
  | .memory, .float => "doubleoctagon"
  | .memory, .vector => "tripleoctagon"

def style : Dependence → String
  | .data => "label=\"\""
  | .control true => "style=dashed,color=red,label=\"\""
  | .control false => "style=dashed,color=blue,label=\"\""

-- A backslash stands in front of quotes and of backslashes.
def escape (label : String) : String :=
  String.ofList <| label.toList.flatMap fun c =>
    if c == '\\' || c == '"' then ['\\', c] else [c]

def attributes (n : Node) : String :=
  let label := "label=\"" ++ toString n.id ++ " " ++ escape n.label ++ "\""
  if n.isExternal then "shape=box,color=blue," ++ label
  else if n.role.isSome then label ++ ", style=filled, fillcolor=lightgrey, shape=oval"
  else label ++ ", shape=" ++ shape n.category n.numType

def nodeLine (n : Node) : String := toString n.id ++ " [" ++ attributes n ++ "]\n"

def edgeLine (e : Edge) : String :=
  toString e.source ++ " -> " ++ toString e.target ++ " [" ++ style e.kind ++ "]\n"

def render (g : Graph) : String :=
  "digraph loop_analysis_graph \x7b\n" ++
    String.join (g.nodes.values.map nodeLine) ++
    String.join ((g.nodes.values.flatMap g.forwardOutgoing).map edgeLine) ++ "\x7d\n"

end LoopDeps.Dot
