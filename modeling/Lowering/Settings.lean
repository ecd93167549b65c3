import Lowering.Code.Function
import Lowering.File.Path

/-!
# Settings of a run
-/

namespace Lowering

structure Settings where
  /-- The directory of the runtime fragments. -/
  fragmentDirectory : String := "source"
  /-- The file for the generated unit; without one it is printed. -/
  output : Option String := none
  indent : Nat := Code.defaultIndent
  /-- Whether to log each function; the log itself is not modelled. -/
  verbose : Bool := false

namespace Settings

/-- Accepts every setting but an indentation of no width. -/
def validate (settings : Settings) : Except Error Unit :=
  if settings.indent = 0 then
    .error { fault := .invalidConfig "indent width must be at least 1" }
  else .ok ()

/-- Whether both name the same output, or neither names one. -/
def alikeOutput : Option String → Option String → Bool
  | none, none => true
  | some a, some b => Path.alike a b
  | _, _ => false

/-- Settings are alike when they agree; paths are compared step by step. -/
def alike (a b : Settings) : Bool :=
  Path.alike a.fragmentDirectory b.fragmentDirectory
    && alikeOutput a.output b.output
    && a.indent = b.indent && a.verbose = b.verbose

def isDefault (settings : Settings) : Bool :=
  settings.alike {}

end Settings

end Lowering
