import LoopDeps.Graph.Basic
import LoopDeps.Decimal.Places
set_option autoImplicit false

/- The graph as lines of tab-separated fields. The first line holds the number of nodes, the largest
   depth and the coverage. Then comes a line per node in id order: depth, weight, category, numeric
   type, and the forward edges out and in, each time a count and then the other end, the kind and a
   weight of every edge. An input over a data edge shows its producer's weight; a control input
   shows the weight of the node itself. -/
namespace LoopDeps.Record

def weightText (weight : Float) : String := Decimal.fixed 0 weight

def field (text : String) : String := "\t" ++ text

def edgeFields (other : NodeId) (kind : Dependence) (weight : Float) : String :=
  field (toString other) ++ field (String.singleton kind.letter) ++ field (weightText weight)

def outFields (g : Graph) (e : Edge) : String := edgeFields e.target e.kind (g.weightOf e.target)

def inFields (g : Graph) (n : Node) (e : Edge) : String :=
  edgeFields e.source e.kind (if e.kind.isControl then n.weight else g.weightOf e.source)

def nodeLine (g : Graph) (n : Node) : String :=
  toString n.depth ++ field (weightText n.weight) ++ field (String.singleton n.categoryLetter) ++
    field (String.singleton n.numType.letter) ++
    field (toString n.forwardOutCount) ++ String.join ((g.forwardOutgoing n).map (outFields g)) ++
    field (toString n.forwardInCount) ++ String.join ((g.forwardIncoming n).map (inFields g n)) ++ "\n"

def header (g : Graph) : String :=
  toString g.size ++ field "0" ++ field (Decimal.fixed 5 g.coverage) ++ "\n"

def render (g : Graph) : String := header g ++ String.join (g.nodes.values.map (nodeLine g))

end LoopDeps.Record
