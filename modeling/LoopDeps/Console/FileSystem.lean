import LoopDeps.Console.Session
set_option autoImplicit false

/- Files in directories, as the place where the program runs: what a path finds there, and what is
   there after a directory is made or a file written. -/
namespace LoopDeps

mutual
inductive FileTree where
  | file (text : String)
  | directory (entries : FileForest)
inductive FileForest where
  | nil
  | cons (name : String) (tree : FileTree) (rest : FileForest)
end

namespace FileForest

def get? (name : String) : FileForest → Option FileTree
  | .nil => none
  | .cons key tree rest => if name = key then some tree else rest.get? name

-- What was under the name before is gone.
def put (name : String) (fresh : FileTree) : FileForest → FileForest
  | .nil => .cons name fresh .nil
  | .cons key tree rest =>
      if name = key then .cons key fresh rest else .cons key tree (rest.put name fresh)

end FileForest

namespace FileTree

def empty : FileTree := .directory .nil

-- Directories on the way are made where there is nothing.
def put : FileTree → Segments → FileTree → FileTree
  | _, [], fresh => fresh
  | .directory entries, name :: rest, fresh =>
      .directory (entries.put name (((entries.get? name).getD empty).put rest fresh))
  | .file text, _ :: _, _ => .file text

end FileTree

-- What is at the end of a way from the root, with the directories passed, the nearest first, each
-- beside the name taken from it.
structure Place where
  tree : FileTree
  passed : List (String × FileTree)

namespace Place

def path (place : Place) : Segments := (place.passed.map Prod.fst).reverse

-- The root is its own parent.
def parent (place : Place) : Place :=
  match place.passed with
  | [] => place
  | (_, tree) :: passed => ⟨tree, passed⟩

def enter (place : Place) (entries : FileForest) (name : String) : Except SystemError Place :=
  if Path.nameTooLong name then .error .nameTooLong
  else match entries.get? name with
    | some tree => .ok ⟨tree, (name, place.tree) :: place.passed⟩
    | none => .error .notFound

-- Nothing leads on from a file, not even a segment that stays where it is.
def step (place : Place) (segment : String) : Except SystemError Place :=
  match place.tree with
  | .file _ => .error .notDirectory
  | .directory entries =>
      if Path.isDot segment then .ok place
      else if segment = Path.parentSegment then .ok place.parent
      else place.enter entries segment

end Place

structure FileSystem where
  root : FileTree
  -- The directory where the program runs.
  home : Segments

namespace FileSystem

-- Directories that every system has.
def standardDirectories : List Segments :=
  [["bin"], ["boot"], ["dev"], ["dev", "fd"], ["dev", "pts"], ["dev", "shm"], ["etc"], ["home"],
   ["lib"], ["media"], ["mnt"], ["opt"], ["proc"], ["proc", "self"], ["root"], ["run"], ["sbin"],
   ["srv"], ["sys"], ["tmp"], ["usr"], ["usr", "bin"], ["usr", "lib"], ["usr", "local"],
   ["usr", "sbin"], ["usr", "share"], ["var"], ["var", "lib"], ["var", "log"], ["var", "tmp"]]

-- Devices that hold no text.
def emptyDevices : List Segments := [["dev", "null"], ["dev", "stdin"]]

def standardRoot : FileTree :=
  let directories := standardDirectories.foldl (fun root path => root.put path .empty) .empty
  emptyDevices.foldl (fun root path => root.put path (.file "")) directories

def standardHome : Segments := ["tmp", "work"]

-- Only these files are in the directory where the program runs.
def ofFiles (files : List (String × String)) : FileSystem :=
  { root := files.foldl
      (fun root (path, text) => root.put (standardHome ++ Path.names path) (.file text))
      (standardRoot.put standardHome .empty)
    home := standardHome }

def origin (s : FileSystem) (path : String) : Except SystemError Place :=
  let root : Place := ⟨s.root, []⟩
  if Path.isAbsolute path then .ok root else s.home.foldlM Place.step root

def walk (s : FileSystem) (path : String) (segments : Segments) : Except SystemError Place := do
  segments.foldlM Place.step (← s.origin path)

def locate (s : FileSystem) (path : String) : Except SystemError Place :=
  if path.isEmpty then .error .notFound
  else if Path.tooLong path then .error .nameTooLong
  else s.walk path (Path.segments path)

def read (s : FileSystem) (path : String) : Except SystemError String := do
  match (← s.locate path).tree with
  | .file text => .ok text
  | .directory _ => .error .isDirectory

def isDirectory (s : FileSystem) (path : String) : Bool :=
  match s.locate path with
  | .ok ⟨.directory _, _⟩ => true
  | _ => false

def put (s : FileSystem) (path : Segments) (tree : FileTree) : FileSystem :=
  { s with root := s.root.put path tree }

-- Makes the last segment of a path, whatever slashes follow it. The way to it must be there.
def make (s : FileSystem) (path : String) : Except SystemError FileSystem :=
  if path.isEmpty then .error .notFound
  else if Path.tooLong path then .error .nameTooLong
  else match (Path.segments path).reverse.dropWhile String.isEmpty with
    | [] => .error .exists
    | name :: above => do
        let place ← s.walk path above.reverse
        match place.step name with
        | .ok _ => .error .exists
        | .error .notFound => .ok (s.put (place.path ++ [name]) .empty)
        | .error error => .error error

-- Puts a text where no directory is, in place of what was there.
def write (s : FileSystem) (path text : String) : Except SystemError FileSystem :=
  if path.isEmpty then .error .notFound
  else if Path.tooLong path then .error .nameTooLong
  else match (Path.segments path).reverse with
    | [] => .error .notFound
    | name :: above => do
        let place ← s.walk path above.reverse
        match place.step name with
        | .ok ⟨.directory _, _⟩ => .error .isDirectory
        | .ok ⟨.file _, passed⟩ => .ok (s.put (Place.path ⟨.file text, passed⟩) (.file text))
        | .error .notFound => .ok (s.put (place.path ++ [name]) (.file text))
        | .error error => .error error

def makeStep (path : String) : StateM FileSystem (Except SystemError Unit) := fun s =>
  match s.make path with
  | .ok made => (.ok (), made)
  | .error error => (.error error, s)

-- Directories made before an error stay.
def makeAll (s : FileSystem) (path : String) : Except SystemError Unit × FileSystem :=
  (Path.makeAll makeStep (fun path s => (s.isDirectory path, s)) path).run s

-- Why a file of a name cannot be written in a directory.
def refusal (s : FileSystem) (directory name : String) : Option String :=
  match s.write (Path.join directory name) "" with
  | .ok _ => none
  | .error error => some error.text

-- What cannot be written is left out.
def writeIn (s : FileSystem) (directory : String) (files : List (String × String)) : FileSystem :=
  files.foldl (fun s (name, text) => (s.write (Path.join directory name) text).toOption.getD s) s

end FileSystem

namespace Session

-- The session's answers from a file system, and the file system afterwards.
def runIn (s : FileSystem) : Session → Transcript × FileSystem
  | .done transcript => (transcript, s.writeIn transcript.directory transcript.files)
  | .read path next => (next (reasonOf (s.read path))).runIn s
  | .makeDirectory path next =>
      let (made, after) := s.makeAll path
      (next (reasonOf (made.map fun _ => after.refusal path))).runIn after

end Session

end LoopDeps
