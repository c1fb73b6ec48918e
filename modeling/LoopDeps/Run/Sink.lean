import LoopDeps.Graph.Basic
set_option autoImplicit false

/- Where the outputs of a run go: files under their names, some of which may be refused. -/
namespace LoopDeps

structure Sink where
  files : List (String × String)
  -- The system's reason for refusing a file.
  refusal : String → Option String

namespace Sink

def store (files : List (String × String)) (name text : String) : List (String × String) :=
  files.filter (fun file => file.1 != name) ++ [(name, text)]

def write (sink : Sink) (name text : String) : Except LoopError Sink :=
  match sink.refusal name with
  | some reason => .error (.system reason)
  | none => .ok { sink with files := store sink.files name text }

-- Stops at the first refusal and keeps what was stored before it.
def writeAll (sink : Sink) : List (String × String) → Sink × Option LoopError
  | [] => (sink, none)
  | (name, text) :: rest =>
      match sink.write name text with
      | .error error => (sink, some error)
      | .ok stored => stored.writeAll rest

end Sink

end LoopDeps
