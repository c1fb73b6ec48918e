import LoopDeps.Console.FileSystem
set_option autoImplicit false

/- The program itself: a session on the system's files and streams. -/
namespace LoopDeps.Main

def usage : String :=
  "Dependency graphs for the innermost loops of a textual IR module.\n\n" ++
  "  -o, --output DIR     directory the graph files are written to (default: .)\n" ++
  "      --no-dot         write no drawings\n" ++
  "      --no-record      write no records\n" ++
  "      --function NAME  only look at the function with this name\n" ++
  "      --list-loops     print the opcodes of every loop\n" ++
  "      --dump-ir        print the parsed module and stop\n" ++
  "  -v, --verbose        log more, also several times\n" ++
  "  -h, --help           print this text\n"

def usageText : UsageError → String
  | .unknownArgument => "unexpected argument"
  | .invalidValue => "a value is required"
  | .argumentConflict => "an option cannot be used more than once"
  | .tooManyValues => "a flag takes no value"
  | .displayHelp => usage

-- The system's number for an error is given with either sign.
def isCode (code number : UInt32) : Bool := code == number || -code == number

def systemError (error : IO.Error) : SystemError :=
  match error with
  | .noFileOrDirectory .. => .notFound
  | .alreadyExists .. => .exists
  | .inappropriateType _ code _ => if isCode code 20 then .notDirectory else .isDirectory
  | .invalidArgument _ code _ => if isCode code 36 then .nameTooLong else .other (toString error)
  | .permissionDenied .. => .other "Permission denied (os error 13)"
  | error => .other (toString error)

def attempt {α : Type} (action : IO α) : IO (Except SystemError α) := do
  try pure (.ok (← action))
  catch error => pure (.error (systemError error))

def read (path : String) : IO (Except SystemError String) :=
  if Path.tooLong path then pure (.error .nameTooLong) else attempt (IO.FS.readFile path)

def make (path : String) : IO (Except SystemError Unit) :=
  if Path.tooLong path then pure (.error .nameTooLong) else attempt (IO.FS.createDir path)

def isDirectory (path : String) : IO Bool :=
  if Path.tooLong path then pure false
  else do ((← IO.currentDir) / path).isDir

-- The names of directories, which cannot be written to as files.
def taken (path : String) : IO (List String) := do
  let entries ← ((← IO.currentDir) / path).readDir
  let directories ← entries.filterM fun entry => entry.path.isDir
  pure (directories.toList.map fun entry => entry.fileName)

def refusal (directory : String) (taken : List String) (name : String) : Option String :=
  if Path.tooLong (Path.join directory name) then some SystemError.nameTooLong.text
  else if taken.contains name then some SystemError.isDirectory.text
  else none

def makeDirectory (path : String) : IO (Except SystemError (String → Option String)) := do
  match ← Path.makeAll make isDirectory path with
  | .ok () => pure (.ok (refusal path (← taken path)))
  | .error error => pure (.error error)

def perform : Session → IO Transcript
  | .done transcript => pure transcript
  | .read path next => do perform (next (reasonOf (← read path)))
  | .makeDirectory path next => do perform (next (reasonOf (← makeDirectory path)))

def finish (verbose : Nat) (transcript : Transcript) : IO UInt32 := do
  for (name, text) in transcript.files do
    IO.FS.writeFile (Path.join transcript.directory name) text
  (← IO.getStderr).putStr (Message.render verbose transcript.messages)
  (← IO.getStdout).putStr transcript.output
  pure transcript.exit.toUInt32

end LoopDeps.Main

open LoopDeps in
def main (texts : List String) : IO UInt32 := do
  match Arguments.parse texts with
  | .error .displayHelp => do
      IO.print Main.usage
      pure 0
  | .error error => do
      IO.eprintln ("error: " ++ Main.usageText error)
      pure 2
  | .ok given => do
      let transcript ← Main.perform (Session.start given)
      Main.finish given.verbose transcript
