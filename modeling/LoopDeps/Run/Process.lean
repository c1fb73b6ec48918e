import LoopDeps.Graph.Construct
import LoopDeps.Graph.Dot
import LoopDeps.Graph.Record
import LoopDeps.Run.Nest
import LoopDeps.Run.Report
import LoopDeps.Run.Sink
set_option autoImplicit false

/- A run over the loops of several functions. Loops are numbered across functions; every innermost
   one is built, written and reported, and an error stays inside its report. -/
namespace LoopDeps

open LoopDeps.Flow LoopDeps.ControlLinks

structure Options where
  dot : Bool
  record : Bool
  listLoops : Bool
deriving DecidableEq, Repr

def dotFile (loopId : Nat) : String := toString loopId ++ ".loop_analysis_graph.dot"

def recordFile (loopId : Nat) : String := toString loopId ++ ".loop_analysis_graph.graph"

namespace Options

def default : Options := ⟨true, true, false⟩

def fileNames (options : Options) (loopId : Nat) : List String :=
  (if options.dot then [dotFile loopId] else []) ++
    (if options.record then [recordFile loopId] else [])

-- The files of a graph, with their texts.
def artifacts (options : Options) (g : Graph) : List (String × String) :=
  (if options.dot then [(dotFile g.loopId, Dot.render g)] else []) ++
    (if options.record then [(recordFile g.loopId, Record.render g)] else [])

end Options

namespace Outcome

def ofGraph (g : Graph) : Outcome :=
  .written g.size g.edges.size (g.edges.values.countP Edge.backedge)

def ofError : LoopError → Outcome
  | .emptyLoop loopId => .skipped (LoopError.emptyLoop loopId).message
  | error => .failed error.message

end Outcome

def writeLoop (options : Options) (sink : Sink) (body : Body) (pdom : PostDominates) :
    Sink × Outcome :=
  match Graph.construct body pdom with
  | .error error => (sink, .ofError error)
  | .ok g =>
      match sink.writeAll (options.artifacts g) with
      | (stored, none) => (stored, .ofGraph g)
      | (stored, some error) => (stored, .ofError error)

def processLoop (options : Options) (sink : Sink) (body : Body) (pdom : PostDominates) :
    Sink × Report :=
  let (stored, outcome) := writeLoop options sink body pdom
  (stored,
    { loopId := body.loopId
      func := body.func.name
      outcome := outcome
      listing := if options.listLoops then some body.listing else none })

structure Run where
  options : Options
  sink : Sink
  -- The number of the next loop.
  next : Nat
  reports : List Report

namespace Run

def new (options : Options) (sink : Sink) : Run := ⟨options, sink, 0, []⟩

def visit (f : Func) (nest : LoopNest) (pdom : PostDominates) (run : Run) (id : LoopId) : Run :=
  let numbered := { run with next := run.next + 1 }
  if nest.isInnermost id then
    let (sink, report) := processLoop run.options run.sink ⟨run.next, f, nest.blocksOf id⟩ pdom
    { numbered with sink := sink, reports := run.reports ++ [report] }
  else numbered

def function (run : Run) (f : Func) (nest : LoopNest) (pdom : PostDominates) : Run :=
  nest.order.foldl (visit f nest pdom) run

-- A function with its own loops and post-dominance.
def analyzed (run : Run) (f : Func) : Run :=
  run.function f (LoopNest.ofForest (LoopForest.ofFunc f)) (postDominance f).dominates

def functions (run : Run) (fs : List Func) : Run := fs.foldl analyzed run

def summary (run : Run) : Summary := Summary.ofReports run.reports

end Run

end LoopDeps
