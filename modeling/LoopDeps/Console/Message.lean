set_option autoImplicit false

/- Lines for the user: log lines, which are shown from some verbosity on, and complaints, which are
   always shown. -/
namespace LoopDeps

inductive Level where
  | error
  | warn
  | info
  | debug
  | trace
deriving DecidableEq, Repr

namespace Level

def tag : Level → String
  | .error => "[ERROR]"
  | .warn => "[WARN ]"
  | .info => "[INFO ]"
  | .debug => "[DEBUG]"
  | .trace => "[TRACE]"

-- The verbosity from which on a level is shown.
def verbosity : Level → Nat
  | .error => 0
  | .warn => 0
  | .info => 1
  | .debug => 2
  | .trace => 3

end Level

inductive Message where
  | log (level : Level) (text : String)
  | warning (text : String)
  | fatal (text : String)
  -- The error that ends the program.
  | failure (text : String)
deriving DecidableEq, Repr

namespace Message

def isShown (verbose : Nat) : Message → Bool
  | .log level _ => level.verbosity ≤ verbose
  | _ => true

def text : Message → String
  | .log level text => level.tag ++ " " ++ text
  | .warning text => "warning: " ++ text
  | .fatal text => "fatal error: " ++ text
  | .failure text => "Error: " ++ text

def render (verbose : Nat) (messages : List Message) : String :=
  String.join ((messages.filter (isShown verbose)).map fun message => message.text ++ "\n")

def info (text : String) : Message := .log .info text
def debug (text : String) : Message := .log .debug text
def trace (text : String) : Message := .log .trace text

end Message

end LoopDeps
