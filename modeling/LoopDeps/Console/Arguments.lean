set_option autoImplicit false

/- The command line: options in long and short form, and one input. Long names are never shortened,
   short flags may share a dash, and everything after two dashes is an input. -/
namespace LoopDeps

inductive UsageError where
  | unknownArgument
  -- An option that takes a value has none.
  | invalidValue
  -- An option is given twice.
  | argumentConflict
  -- A flag is given a value.
  | tooManyValues
  | displayHelp
deriving DecidableEq, Repr

inductive Flag where
  | noDot
  | noRecord
  | listLoops
  | dumpIr
  | verbose
  | help
deriving DecidableEq, Repr

inductive ValueOption where
  | output
  | function
deriving DecidableEq, Repr

structure Arguments where
  flags : List Flag
  -- How often a more verbose log was asked for.
  verbose : Nat
  output : Option String
  function : Option String
  input : Option String
deriving DecidableEq, Repr

namespace Arguments

def none : Arguments := ⟨[], 0, .none, .none, .none⟩

def has (given : Arguments) (flag : Flag) : Bool := given.flags.contains flag

def setFlag (given : Arguments) (flag : Flag) : Except UsageError Arguments :=
  match flag with
  | .help => .error .displayHelp
  | .verbose => .ok { given with verbose := min (given.verbose + 1) 255 }
  | flag =>
      if given.has flag then .error .argumentConflict
      else .ok { given with flags := flag :: given.flags }

def setValue (given : Arguments) (option : ValueOption) (value : String) :
    Except UsageError Arguments :=
  match option with
  | .output =>
      if given.output.isSome then .error .argumentConflict
      else .ok { given with output := some value }
  | .function =>
      if given.function.isSome then .error .argumentConflict
      else .ok { given with function := some value }

inductive Named where
  | flag (flag : Flag)
  | value (option : ValueOption)

def longName? (name : String) : Option Named :=
  if name == "output" then some (.value .output)
  else if name == "function" then some (.value .function)
  else if name == "no-dot" then some (.flag .noDot)
  else if name == "no-record" then some (.flag .noRecord)
  else if name == "list-loops" then some (.flag .listLoops)
  else if name == "dump-ir" then some (.flag .dumpIr)
  else if name == "verbose" then some (.flag .verbose)
  else if name == "help" then some (.flag .help)
  else .none

def shortName? (c : Char) : Option Named :=
  if c == 'o' then some (.value .output)
  else if c == 'v' then some (.flag .verbose)
  else if c == 'h' then some (.flag .help)
  else .none

-- An option whose value is still to come, or has come and is not entered yet.
structure Reading where
  given : Arguments
  pending : Option (ValueOption × Option String)
  inputsOnly : Bool

namespace Reading

-- Enters the pending value. Complaints about it come before those about what follows.
def settle (r : Reading) : Except UsageError Reading :=
  match r.pending with
  | .none => .ok r
  | some (_, .none) => .error .invalidValue
  | some (option, some value) => do
      pure { r with given := ← r.given.setValue option value, pending := .none }

def takeFlag (r : Reading) (flag : Flag) : Except UsageError Reading := do
  let r ← r.settle
  pure { r with given := ← r.given.setFlag flag }

def takeValue (r : Reading) (option : ValueOption) (attached : Option String) :
    Except UsageError Reading := do
  let r ← r.settle
  match attached with
  | some value => pure { r with given := ← r.given.setValue option value }
  | .none => pure { r with pending := some (option, .none) }

-- The name in front of the first equals sign and the value after it.
def splitValue (text : List Char) : String × Option String :=
  let name := String.ofList (text.takeWhile (· != '='))
  match text.dropWhile (· != '=') with
  | [] => (name, .none)
  | _ :: value => (name, some (String.ofList value))

def takeLong (r : Reading) (text : List Char) : Except UsageError Reading :=
  let (name, attached) := splitValue text
  match longName? name with
  | .none => .error .unknownArgument
  | some (.value option) => r.takeValue option attached
  | some (.flag flag) => if attached.isSome then .error .tooManyValues else r.takeFlag flag

-- The rest of a cluster after an option is its value, with or without an equals sign in front.
def attachedValue : List Char → Option String
  | [] => .none
  | '=' :: value => some (String.ofList value)
  | value => some (String.ofList value)

def takeCluster (r : Reading) : List Char → Except UsageError Reading
  | [] => .ok r
  | c :: rest =>
      match shortName? c with
      | .none => .error .unknownArgument
      | some (.flag flag) => do takeCluster (← r.takeFlag flag) rest
      | some (.value option) => r.takeValue option (attachedValue rest)

def takeInput (r : Reading) (text : String) : Except UsageError Reading := do
  if r.given.input.isSome then throw .unknownArgument
  let r ← r.settle
  pure { r with given := { r.given with input := some text } }

def take (r : Reading) (text : String) : Except UsageError Reading :=
  if r.inputsOnly then r.takeInput text
  else
    match text.toList with
    | ['-', '-'] => .ok { r with inputsOnly := true }
    | '-' :: '-' :: long => r.takeLong long
    | '-' :: c :: cluster => r.takeCluster (c :: cluster)
    | _ =>
        match r.pending with
        | some (option, .none) => .ok { r with pending := some (option, some text) }
        | _ => r.takeInput text

end Reading

def parse (texts : List String) : Except UsageError Arguments := do
  let r ← texts.foldlM Reading.take ⟨none, .none, false⟩
  pure (← r.settle).given

end Arguments

-- What the program is to do.
structure Settings where
  input : String
  output : String
  dot : Bool
  record : Bool
  function : Option String
  listLoops : Bool
  dumpIr : Bool
deriving DecidableEq, Repr

namespace Settings

-- There is nothing to do without an input.
def ofArguments? (given : Arguments) : Option Settings :=
  given.input.map fun input =>
    { input := input
      output := given.output.getD "."
      dot := !given.has .noDot
      record := !given.has .noRecord
      function := given.function
      listLoops := given.has .listLoops
      dumpIr := given.has .dumpIr }

def wants (settings : Settings) (name : String) : Bool :=
  match settings.function with
  | none => true
  | some wanted => wanted == name

end Settings

end LoopDeps
