import Lowering.Text.Lines

/-!
# Paths

A path is a text in which slashes separate the steps.  Repeated slashes count as
one, and a slash in front starts at the root.
-/

namespace Lowering.Path

/-- The steps of a path, also those that stay (`.`) or go up (`..`). -/
def steps (path : String) : List String :=
  ((Text.split '/' path.toList).filter (· ≠ [])).map String.ofList

/-- How many bytes a step may have. -/
def maxStep : Nat := 255

/-- How many bytes a path may have. -/
def maxLength : Nat := 4095

def isAbsolute (path : String) : Bool :=
  path.toList.head? = some '/'

def endsInSlash (path : String) : Bool :=
  path.toList.getLast? = some '/'

/-- The path of a file in a directory. -/
def child (directory name : String) : String :=
  if directory = "" ∨ endsInSlash directory then directory ++ name
  else directory ++ "/" ++ name

/-- The path of the directory that holds the last step. -/
def parent (path : String) : String :=
  (if isAbsolute path then "/" else "") ++ "/".intercalate (steps path).dropLast

/-- Where a path starts: at the root, expressly where one is, or there without
saying so. -/
inductive Start where
  | root
  | here
  | implicit
deriving DecidableEq

def start (path : String) : Start :=
  if isAbsolute path then .root
  else if (steps path).head? = some "." then .here
  else .implicit

/-- Paths are alike when they start alike and take the same steps, those that
stay left out. -/
def alike (a b : String) : Bool :=
  start a = start b && (steps a).filter (· ≠ ".") = (steps b).filter (· ≠ ".")

end Lowering.Path
