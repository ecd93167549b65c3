import Lowering.Code.Function
import Lowering.Fragment
import Lowering.Include

/-!
# Units

A unit is the runtime, the generated functions and the entry point in one file.
Inside it the headers of the runtime are already present, so the directives that
include them are dropped from the fragments.  The generated code is not touched.
-/

namespace Lowering.Code

/-- The headers that are part of every unit. -/
def providedHeaders : List Text :=
  Fragment.headers.map String.toList

/-- The fragments as they appear in a unit. -/
def cleaned (fragments : Fragments) : Fragments :=
  fragments.map (Include.filter providedHeaders)

/-- The headers, the sources, the generated code and the entry point, in this
order. -/
def layout (fragments : Fragments) (code : Functions) : Text :=
  let sources := Text.join ['\n']
    [fragments.utilsSource, fragments.valueSource, fragments.builtinsSource]
  "\n".toList ++ fragments.utilsHeader
    ++ "\n".toList ++ fragments.valueHeader
    ++ "\n".toList ++ sources
    ++ "\n\n".toList ++ code.declarations
    ++ "\n\n".toList ++ code.definitions
    ++ "\n\n".toList ++ fragments.entry ++ "\n".toList

def unit (fragments : Fragments) (indent : Nat) (program : Program) :
    Except Error Text := do
  let code ← functions indent program
  .ok (layout (cleaned fragments) code)

end Lowering.Code
