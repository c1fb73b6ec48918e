import LoopDeps.Console.Arguments
import LoopDeps.Console.Narrative
import LoopDeps.Console.Reindent
import LoopDeps.IR.Listing
set_option autoImplicit false

/- One run of the program, from its arguments to its exit code. What it needs of the world is asked
   for in the order in which it is needed. -/
namespace LoopDeps

structure Transcript where
  exit : Nat
  output : String
  messages : List Message
  -- The files written, by name, and the directory they are in.
  directory : String
  files : List (String × String)

inductive Session where
  | done (transcript : Transcript)
  -- Asks for the text of a file, or the system's reason for having none.
  | read (path : String) (next : Except String String → Session)
  -- Asks for a directory to be made, or the reason why there is none. The answer tells which file
  -- names are refused there, and why.
  | makeDirectory (path : String) (next : Except String (String → Option String) → Session)

namespace Session

def listingIndent : Nat := 2

def failed (messages : List Message) (reason : String) : Session :=
  .done ⟨1, "", messages ++ [.failure reason], "", []⟩

def systemError (reason : String) : String := (LoopError.system reason).message

def reportMessages (report : Report) : List Message :=
  match report.outcome with
  | .failed reason => [.warning reason]
  | .skipped reason => [Message.debug ("skipped: " ++ reason)]
  | .written .. => []

def reportOutput (report : Report) : String :=
  match report.listing with
  | some listing => Reindent.reindent listing listingIndent
  | none => ""

def options (settings : Settings) : Options :=
  ⟨settings.dot, settings.record, settings.listLoops⟩

def graphs (settings : Settings) (functions : List Func) (messages : List Message)
    (refusal : String → Option String) : Session :=
  let wanted := functions.filter fun f => settings.wants f.name
  let fresh := Run.new (options settings) ⟨[], refusal⟩
  let run := fresh.functions wanted
  .done
    { exit := 0
      output := String.join (run.reports.map reportOutput) ++ run.summary.text ++ "\n"
      messages := messages ++ Narrative.runLines settings.output fresh wanted ++
        run.reports.flatMap reportMessages
      directory := settings.output
      files := run.sink.files }

-- A filter that names no function of the module is no error.
def filterMessages (settings : Settings) (functions : List Func) : List Message :=
  match settings.function with
  | none => []
  | some name =>
      if functions.any fun f => f.name == name then []
      else [.warning ("no function named '@" ++ name ++ "' in " ++ settings.input)]

def onFunctions (settings : Settings) (messages : List Message) (functions : List Func) : Session :=
  if settings.dumpIr then
    .done ⟨0, String.join (functions.map fun f => f.text ++ "\n"), messages, "", []⟩
  else
    let messages := messages ++ filterMessages settings functions
    .makeDirectory settings.output fun
      | .error reason => failed messages (systemError reason)
      | .ok refusal => graphs settings functions messages refusal

def onText (settings : Settings) (messages : List Message) (text : String) : Session :=
  let resolved := Text.resolveText text
  let messages := messages ++ resolved.functions.map Narrative.parsed
  match resolved.error with
  | some error => failed messages error.message
  | none => onFunctions settings messages resolved.functions

def start (given : Arguments) : Session :=
  let messages := [Message.trace "start"]
  match Settings.ofArguments? given with
  | none => .done ⟨1, "", messages ++ [.fatal "no input files"], "", []⟩
  | some settings =>
      .read settings.input fun
        | .error reason => failed messages (systemError reason)
        | .ok text => onText settings messages text

end Session

end LoopDeps
