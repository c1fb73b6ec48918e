import LoopDeps.Console.Message
import LoopDeps.Console.Path
import LoopDeps.Run.Process
import LoopDeps.Text.Parse
set_option autoImplicit false

/- What the log tells of a run. Every line is read off the inputs and results of a step. -/
namespace LoopDeps.Narrative

open LoopDeps.Flow LoopDeps.Message LoopDeps.ControlLinks

def parsed (f : Func) : Message :=
  debug ("parsed @" ++ f.name ++ ": " ++ toString f.blocks.length ++ " blocks")

def dominanceLines (f : Func) (verb : String) (d : Dominance) : List Message :=
  (f.blocks.zip d.sets).map fun (block, set) =>
    trace (block.label ++ " " ++ verb ++ " " ++ toString set.length ++ " blocks")

def loopLines (f : Func) (forest : LoopForest) : List Message :=
  forest.loops.map fun l =>
    let label := (f.block? l.header).elim "" Block.label
    trace ("loop at " ++ label ++ " spans " ++ toString l.blocks.length ++ " blocks")

def forestLines (f : Func) (forest : LoopForest) : List Message :=
  debug ("@" ++ f.name ++ ": " ++ toString forest.loops.length ++ " loops") ::
    forest.loops.zipIdx.map fun (l, id) => trace ("loop " ++ toString id ++ ": " ++ l.text)

def nodeLines (f : Func) (g : Graph) : List Message :=
  g.nodes.values.map fun n =>
    trace ("node " ++ toString n.id ++ " <- " ++ n.label ++ " " ++ f.valueName n.value)

def externalLines (before after : Graph) : List Message :=
  (after.nodes.values.filter fun n => before.lastNode < n.id).map fun n =>
    trace ("node " ++ toString n.id ++ " <- external " ++ n.label)

def controlText : Dependence → String
  | .data => "Data"
  | .control true => "ControlTrue"
  | .control false => "ControlFalse"

def controlLines (before after : Graph) : List Message :=
  (after.edges.values.filter fun e => before.lastEdge < e.id).map fun e =>
    trace (toString e.source ++ " -" ++ controlText e.kind ++ "-> " ++ toString e.target)

def idList (ids : List Nat) : String := "[" ++ String.intercalate ", " (ids.map toString) ++ "]"

-- Each address takes the next four chain nodes.
def expansionLines : List NodeId → List NodeId → List Message
  | address :: addresses, add1 :: add2 :: multiply :: size :: chain =>
      debug ("node " ++ toString address ++ " expands to " ++ idList [add1, add2, multiply, size]) ::
        expansionLines addresses chain
  | _, _ => []

def chainLines (f : Func) (before after : Graph) : List Message :=
  let added := after.chain.drop before.chain.length
  expansionLines (AddressChains.staged f before) added ++
    if added.isEmpty then []
    else [debug ("loop " ++ toString after.loopId ++ ": " ++ toString after.chain.length ++
      " chain nodes")]

def backedgeLines (before : Graph) : List Message :=
  (before.edgesOf (Backedges.search before).marked).map fun e =>
    trace ("backedge " ++ toString e.id ++ ": " ++ toString e.source ++ " -> " ++ toString e.target)

-- A pass, and what is told of it from the graphs before and after.
structure Stage where
  pass : Edit Bool
  lines : Graph → Graph → List Message

def stages (body : Body) (pdom : PostDominates) : List Stage :=
  [⟨DataLinks.pass body, externalLines⟩,
   ⟨ControlLinks.pass body pdom, controlLines⟩,
   ⟨AddressChains.pass body, chainLines body.func⟩,
   ⟨Backedges.pass, fun before _ => backedgeLines before⟩]

-- A failing pass is the last one told of.
def stageLines : List Stage → Graph → List Message
  | [], _ => []
  | stage :: rest, g =>
      match stage.pass.run g with
      | .ok _ after => stage.lines g after ++ stageLines rest after
      | .error _ after => stage.lines g after

def constructionLines (body : Body) (pdom : PostDominates) : List Message :=
  match Graph.ofBody body with
  | .error _ => []
  | .ok g => nodeLines body.func g ++ stageLines (stages body pdom) g

-- Up to the first file that is refused.
def writingLines (directory : String) (sink : Sink) : List String → List Message
  | [] => []
  | name :: rest =>
      debug ("writing " ++ Path.join directory name) ::
        if (sink.refusal name).isSome then [] else writingLines directory sink rest

def outcomeLine (report : Report) : Message :=
  let place := "loop " ++ toString report.loopId ++ " in @" ++ report.func
  match report.outcome with
  | .written nodes edges backedges =>
      info (place ++ ": Written \x7b nodes: " ++ toString nodes ++ ", edges: " ++ toString edges ++
        ", backedges: " ++ toString backedges ++ " \x7d")
  | .skipped reason => .log .warn reason
  | .failed reason => .log .error (place ++ " failed: " ++ reason)

def processLines (directory : String) (run : Run) (body : Body) (pdom : PostDominates)
    (report : Report) : List Message :=
  let writing := match Graph.construct body pdom with
    | .error _ => []
    | .ok g => writingLines directory run.sink (run.options.fileNames g.loopId)
  constructionLines body pdom ++ writing ++ [outcomeLine report]

-- From the search for loops to the last loop of a function.
def functionLines (directory : String) (run : Run) (f : Func) : List Message :=
  let forest := LoopForest.ofFunc f
  let found := dominanceLines f "dominates" (dominance f) ++ loopLines f forest ++
    forestLines f forest
  if forest.isEmpty then found
  else
    let pdom := postDominance f
    let nest := LoopNest.ofForest forest
    let innermost := (nest.numbered run.next).filter fun (id, _) => nest.isInnermost id
    let reports := (run.analyzed f).reports.drop run.reports.length
    found ++ dominanceLines f "post-dominates" pdom ++
      (innermost.zip reports).flatMap fun ((id, number), report) =>
        processLines directory run ⟨number, f, nest.blocksOf id⟩ pdom.dominates report

-- Functions are worked on one after the other.
def runLines (directory : String) (run : Run) : List Func → List Message
  | [] => []
  | f :: rest => functionLines directory run f ++ runLines directory (run.analyzed f) rest

end LoopDeps.Narrative
