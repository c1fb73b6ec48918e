set_option autoImplicit false

/- What became of each loop, and the totals of a run. -/
namespace LoopDeps

inductive Outcome where
  | written (nodes edges backedges : Nat)
  | skipped (reason : String)
  | failed (reason : String)
deriving DecidableEq, Repr

structure Report where
  loopId : Nat
  func : String
  outcome : Outcome
  -- The opcodes of the loop, when asked for.
  listing : Option String
deriving DecidableEq, Repr

structure Summary where
  loops : Nat
  written : Nat
  failed : Nat
  skipped : Nat
deriving DecidableEq, Repr

namespace Outcome

def isWritten : Outcome → Bool
  | .written .. => true
  | _ => false

def isSkipped : Outcome → Bool
  | .skipped _ => true
  | _ => false

def isFailed : Outcome → Bool
  | .failed _ => true
  | _ => false

end Outcome

namespace Summary

def ofReports (reports : List Report) : Summary :=
  { loops := reports.length
    written := reports.countP fun report => report.outcome.isWritten
    failed := reports.countP fun report => report.outcome.isFailed
    skipped := reports.countP fun report => report.outcome.isSkipped }

def text (s : Summary) : String :=
  toString s.loops ++ " loops: " ++ toString s.written ++ " written, " ++ toString s.failed ++
    " failed, " ++ toString s.skipped ++ " skipped"

end Summary

end LoopDeps
