import Lowering.Code.Unit
import Lowering.File.Store
import Lowering.Program.Decoding
import Lowering.Settings

/-!
# Building from files

A build reads a program and the runtime fragments from a store, and either
prints the unit or writes it to a file.  Inputs are looked at in a fixed order:
the settings, the program, the fragments one by one; then the program is
lowered.  The first failure decides the error, and a build that fails writes
nothing.
-/

namespace Lowering

/-- What was being done to a file when it failed. -/
inductive FileAction where
  | opening
  | reading
  | creating
  | writing
  | readingFragment
  | writingOutput
deriving DecidableEq

def FileAction.describe : FileAction → String
  | .opening => "failed to open file"
  | .reading => "failed to read file"
  | .creating => "failed to create file"
  | .writing => "failed to write to file"
  | .readingFragment => "failed to read runtime fragment"
  | .writingOutput => "failed to write output"

/-- The error of a file operation; the path is shown as it was given. -/
def FileAction.error (action : FileAction) (path : String)
    (fault : FileFault) : Error :=
  { fault := .io (action.describe ++ " '" ++ path ++ "': " ++ fault.message) }

/-- Reports a failed operation as the failure of an action on a path. -/
def FileAction.attempt {α : Type} (action : FileAction) (path : String)
    (result : Except FileFault α) : Except Error α :=
  result.mapError (action.error path)

namespace Store

/-- Creates a file and writes the program to it. -/
def saveProgram (store : Store) (program : Program) (path : String) :
    Except Error Unit × Store :=
  match store.create path with
  | (.error fault, created) =>
      (.error (FileAction.creating.error path fault), created)
  | (.ok location, created) =>
      let (result, written) := created.fill location program.toBytes
      (FileAction.writing.attempt path result, written)

def loadProgram (store : Store) (path : String) : Except Error Program := do
  let node ← FileAction.opening.attempt path (store.find path)
  let bytes ← FileAction.reading.attempt path node.content
  Program.ofBytes bytes

def loadFragment (store : Store) (directory : String) (fragment : Fragment) :
    Except Error Text :=
  let path := Path.child directory fragment.fileName
  FileAction.readingFragment.attempt path (store.readText path)

/-- Reads the fragments in order. -/
def loadFragments (store : Store) (directory : String) :
    Except Error Fragments :=
  Fragment.all.foldlM (fun fragments fragment => do
    let text ← store.loadFragment directory fragment
    .ok (fragments.set fragment text)) {}

/-- The unit for the program in a file.  Faults of the program are reported with
the path. -/
def compileFile (store : Store) (settings : Settings) (path : String) :
    Except Error Text := do
  settings.validate
  let program ← store.loadProgram path
  let fragments ← store.loadFragments settings.fragmentDirectory
  (Code.unit fragments settings.indent program).mapError fun error =>
    error.locate path

/-- Builds the program in a file.  Gives the text to print, and the store
afterwards. -/
def build (store : Store) (settings : Settings) (path : String) :
    Except Error Text × Store :=
  match store.compileFile settings path, settings.output with
  | .error error, _ => (.error error, store)
  | .ok unit, none => (.ok unit, store)
  | .ok unit, some output =>
      let (result, written) :=
        store.write output (Utf8.encode (String.ofList unit))
      ((FileAction.writingOutput.attempt output result).map fun _ => [],
        written)

end Store

end Lowering
