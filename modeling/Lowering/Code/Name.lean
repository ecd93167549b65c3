import Lowering.Text.Lines

/-!
# Names in generated code

Every name of the program is written behind an underscore.  Names that differ
are written differently, and none is written like one of the functions that
generated code takes from the runtime, which have no underscore in front.  The
underscore does not keep names clear of all reserved words: ten of these begin
with one, and the name `Bool`, say, is written as `_Bool`.

Here are also the forms that all generated code shares.
-/

namespace Lowering.Code

/-- The type of every value at run time. -/
def valueType : Text := "Value*".toList

/-- A name of the program as it appears in generated code. -/
def mangle (name : String) : Text :=
  '_' :: name.toList

theorem mangle_inj {a b : String} : mangle a = mangle b ↔ a = b := by
  simp [mangle, String.toList_inj]

/-- A comma between neighbours. -/
def commaList (items : List Text) : Text :=
  Text.join ", ".toList items

/-- The parameter types of a declaration. -/
def parameterTypes (count : Nat) : Text :=
  commaList (List.replicate count valueType)

/-- A function, of the runtime or of the program, applied to arguments. -/
def application (function : Text) (args : List Text) : Text :=
  function ++ '(' :: commaList args ++ [')']

end Lowering.Code
