import Lowering.File.Path
import Lowering.Text.Bytes

/-!
# A store of files

Directories and files, each at a location, with one of the directories to start
from.  Besides them there is one device, `/dev/full`, which can be opened for
writing and takes no byte.  It stands for a disk without space.  Reading the
device would never come to an end, and is not modelled.

Resolving a path needs each step on the way to start in a directory.  It says
nothing about what is at the end, since a file that is created need not be there
before.

## Main results

* `node?_put` — putting a node changes what is at its location and nothing else.
-/

namespace Lowering

/-- Why a file operation failed. -/
inductive FileFault where
  | notFound
  | isDirectory
  | notDirectory
  | nulInName
  | nameTooLong
  | noSpace
  | notText
deriving DecidableEq

def FileFault.message : FileFault → String
  | .notFound => "No such file or directory (os error 2)"
  | .isDirectory => "Is a directory (os error 21)"
  | .notDirectory => "Not a directory (os error 20)"
  | .nulInName => "file name contained an unexpected NUL byte"
  | .nameTooLong => "File name too long (os error 36)"
  | .noSpace => "No space left on device (os error 28)"
  | .notText => "stream did not contain valid UTF-8"

/-- The names on the way from the root. -/
abbrev Location := List String

inductive Node where
  | directory
  | file (content : Bytes)
  | fullDevice
deriving DecidableEq

/-- What reading gives.  The device, from which nothing is meant to be read, is
refused with its one fault, so that the function is total. -/
def Node.content : Node → Except FileFault Bytes
  | .directory => .error .isDirectory
  | .file content => .ok content
  | .fullDevice => .error .noSpace

structure Store where
  nodes : List (Location × Node)
  /-- Where relative paths start. -/
  here : Location
deriving DecidableEq

namespace Store

/-- The name of the directory to work in.  No step of a path can spell it, since
steps end at slashes. -/
def workName : String := "/"

/-- An empty directory to work in, made among the temporary ones, and the
device. -/
def empty : Store where
  nodes :=
    [([], .directory), (["dev"], .directory), (["dev", "full"], .fullDevice),
      (["tmp"], .directory), (["tmp", workName], .directory)]
  here := ["tmp", workName]

def node? (store : Store) (location : Location) : Option Node :=
  store.nodes.lookup location

def put (store : Store) (location : Location) (node : Node) : Store :=
  { store with nodes := (location, node) :: store.nodes }

@[simp] theorem node?_put (store : Store) (location other : Location)
    (node : Node) :
    (store.put location node).node? other =
      if other = location then some node else store.node? other := by
  by_cases h : other = location
  · simp [node?, put, h]
  · have hbeq : (other == location) = false := by simpa using h
    simp [node?, put, h, hbeq, List.lookup_cons]

/-- Takes what is at a location away. -/
def erase (store : Store) (location : Location) : Store :=
  { store with nodes := store.nodes.filter fun entry => entry.1 ≠ location }

/-! ## Paths -/

/-- One step from a location. -/
def advance (location : Location) (step : String) : Location :=
  if step = "." then location
  else if step = ".." then location.dropLast
  else location ++ [step]

/-- Follows the steps; each is taken from a directory, which is where its name
is looked up. -/
def walk (store : Store) : Location → List String → Except FileFault Location
  | location, [] => .ok location
  | location, step :: steps =>
      match store.node? location with
      | some .directory =>
          if step.utf8ByteSize ≤ Path.maxStep then
            walk store (advance location step) steps
          else .error .nameTooLong
      | some _ => .error .notDirectory
      | none => .error .notFound

def startOf (store : Store) (path : String) : Location :=
  if Path.isAbsolute path then [] else store.here

/-- Follows steps of a path from where it starts. -/
def follow (store : Store) (path : String) (steps : List String) :
    Except FileFault Location :=
  if path.toList.contains '\x00' then .error .nulInName
  else if path = "" then .error .notFound
  else if Path.maxLength < path.utf8ByteSize then .error .nameTooLong
  else store.walk (store.startOf path) steps

/-- The location that a path leads to. -/
def resolve (store : Store) (path : String) : Except FileFault Location :=
  store.follow path (Path.steps path)

/-! ## Reading -/

/-- The node at a path.  A path that ends in a slash has to lead to a
directory. -/
def find (store : Store) (path : String) : Except FileFault Node := do
  let location ← store.resolve path
  match store.node? location with
  | none => .error .notFound
  | some .directory => .ok .directory
  | some node =>
      if Path.endsInSlash path then .error .notDirectory else .ok node

def read (store : Store) (path : String) : Except FileFault Bytes := do
  (← store.find path).content

def readText (store : Store) (path : String) : Except FileFault Text := do
  match Utf8.decode? (← store.read path) with
  | some text => .ok text.toList
  | none => .error .notText

/-! ## Writing

An operation that writes gives its result and the store as it is afterwards,
also when it fails. -/

/-- The location of the file that a path creates, or of the one that it
replaces.  A path that ends in a slash can only mean a directory, so its last
step is not even looked up. -/
def target (store : Store) (path : String) : Except FileFault Location := do
  if Path.endsInSlash path then
    let _ ← store.follow path ((Path.steps path).dropLast ++ ["."])
    .error .isDirectory
  else
    let location ← store.resolve path
    if store.node? location = some .directory then .error .isDirectory
    else .ok location

/-- Opens a file for writing: from then on it is there, and empty. -/
def create (store : Store) (path : String) :
    Except FileFault Location × Store :=
  match store.target path with
  | .error fault => (.error fault, store)
  | .ok location =>
      if store.node? location = some .fullDevice then (.ok location, store)
      else (.ok location, store.put location (.file []))

/-- Gives a created file its content.  The device takes no byte. -/
def fill (store : Store) (location : Location) (content : Bytes) :
    Except FileFault Unit × Store :=
  if store.node? location = some .fullDevice then
    (if content = [] then .ok () else .error .noSpace, store)
  else (.ok (), store.put location (.file content))

/-- Creates a file and gives it its content. -/
def write (store : Store) (path : String) (content : Bytes) :
    Except FileFault Unit × Store :=
  match store.create path with
  | (.error fault, created) => (.error fault, created)
  | (.ok location, created) => created.fill location content

/-- Makes a directory where there is nothing. -/
def ensureDirectory (store : Store) (location : Location) : Store :=
  if (store.node? location).isSome then store else store.put location .directory

/-- Makes the directories on the way, and the one at the end of the steps. -/
def ensureDirectories (store : Store) : Location → List String → Store
  | location, [] => store.ensureDirectory location
  | location, step :: steps =>
      ensureDirectories (store.ensureDirectory location)
        (advance location step) steps

def makeDirectory (store : Store) (path : String) : Store :=
  store.ensureDirectories (store.startOf path) (Path.steps path)

/-- Writes a file, and makes the directories on the way to it. -/
def install (store : Store) (path : String) (content : Bytes) :
    Except FileFault Unit × Store :=
  (store.makeDirectory (Path.parent path)).write path content

end Store

end Lowering
