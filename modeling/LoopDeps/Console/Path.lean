import LoopDeps.Console.SystemError
set_option autoImplicit false

/- Paths as a system reads them: names between slashes, followed one after the other. -/
namespace LoopDeps

abbrev Segments := List String

namespace Path

-- In bytes.
def longest : Nat := 4095
def longestName : Nat := 255

def tooLong (path : String) : Bool := longest < path.utf8ByteSize
def nameTooLong (name : String) : Bool := longestName < name.utf8ByteSize

-- The segments after the start of one, which is given in reverse.
def segmentsFrom (start : List Char) : List Char → Segments
  | [] => [String.ofList start.reverse]
  | c :: rest =>
      if c == '/' then String.ofList start.reverse :: segmentsFrom [] rest
      else segmentsFrom (c :: start) rest

-- Slashes side by side have an empty segment between them.
def segments (path : String) : Segments := segmentsFrom [] path.toList

def isAbsolute (path : String) : Bool := path.startsWith "/"

-- A segment that stays where it is.
def isDot (segment : String) : Bool := segment.isEmpty || segment == "."

def parentSegment : String := ".."

def names (path : String) : Segments := (segments path).filter fun segment => !isDot segment

-- The beginnings of a list that are neither empty nor the whole, the longest first.
def properBeginnings (names : Segments) : List Segments :=
  (List.range' 1 (names.length - 1)).reverse.map names.take

-- The directories that a path leads through, the nearest first. Neither the root nor the directory
-- where the path begins is one of them.
def above (path : String) : List String :=
  let start := if isAbsolute path then "/" else ""
  (properBeginnings (names path)).map fun beginning => start ++ String.intercalate "/" beginning

-- The path of a name in a directory.
def join (directory name : String) : String :=
  if directory.isEmpty || directory.endsWith "/" then directory ++ name
  else directory ++ "/" ++ name

section

variable {m : Type → Type} [Monad m]
variable (make : String → m (Except SystemError Unit)) (isDirectory : String → m Bool)

-- A path that is a directory already is as good as made.
def settle (path : String) : m (Except SystemError Unit) := do
  match ← make path with
  | .ok () => pure (.ok ())
  | .error error => pure (if ← isDirectory path then .ok () else .error error)

-- Makes the first path a directory. Only when the way to it is missing are the others made, in the
-- same manner, and the first one tried again.
def settleAll : List String → m (Except SystemError Unit)
  | [] => pure (.ok ())
  | path :: above => do
      match ← settle make isDirectory path with
      | .error .notFound =>
          match ← settleAll above with
          | .ok () => settle make isDirectory path
          | .error error => pure (.error error)
      | result => pure result

-- An empty path stands for the directory where the program runs.
def makeAll (path : String) : m (Except SystemError Unit) :=
  settleAll make isDirectory (if path.isEmpty then [] else path :: above path)

end

end Path

end LoopDeps
