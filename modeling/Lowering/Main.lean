import Lowering.CommandLine

/-!
# The program

Only this module touches the outside world.  It takes a picture of the files
that the arguments name, lets the command run on it, and carries out what the
command did.
-/

namespace Lowering

/-- The files that a build reads. -/
def Request.sources (request : Request) : List String :=
  request.input.toList
    ++ Fragment.all.map fun fragment =>
      Path.child request.settings.fragmentDirectory fragment.fileName

namespace Picture

def isDirectory (path : String) : IO Bool := do
  try
    (← IO.FS.realPath path).isDir
  catch _ => return false

/-- Adds the directory of a path, and the path itself if it is one. -/
def addDirectories (store : Store) (path : String) : IO Store := do
  let parent := if Path.parent path = "" then "." else Path.parent path
  let store :=
    if ← isDirectory parent then store.makeDirectory parent else store
  return if ← isDirectory path then store.makeDirectory path else store

/-- Adds a file that a build reads.  One that cannot be read is left out. -/
def addSource (store : Store) (path : String) : IO Store := do
  let store ← addDirectories store path
  if (store.find path).toOption.isSome then return store
  try
    let content ← IO.FS.readBinFile path
    return (store.write path content.data.toList).2
  catch _ => return store

/-- The files that matter to a request, around the present directory. -/
def take (request : Request) : IO Store := do
  let here := (← IO.currentDir).toString
  let store := { Store.empty.makeDirectory here with here := Path.steps here }
  let store ← request.sources.foldlM addSource store
  request.settings.output.toList.foldlM addDirectories store

/-- Writes the output of a build that went well. -/
def carryOut (request : Request) (after : Store) : IO Unit := do
  for output in request.settings.output.toList do
    if let .ok content := after.read output then
      IO.FS.writeBinFile output ⟨content.toArray⟩

end Picture

/-- Whether a request gets as far as reading files. -/
def Request.isBuild (request : Request) : Bool :=
  request.input.isSome && !request.help && !request.version

/-- Runs the command on the present files. -/
def runCommand (args : List String) : IO Report := do
  let request := (Request.parse args).toOption.filter Request.isBuild
  match request with
  | none => return (Store.empty.command args).1
  | some request =>
      let (report, after) := (← Picture.take request).command args
      if report.code = 0 then Picture.carryOut request after
      return report

end Lowering

def main (args : List String) : IO UInt32 := do
  let report ← Lowering.runCommand args
  IO.print report.stdout
  IO.eprint report.stderr
  return report.code
