import Lowering.Code.Expression

/-!
# Functions as code

A definition becomes a function whose body holds one statement for each call.
The value of the last call is returned, and a body without calls returns the
none value.  Tabs are placeholders: they are replaced by spaces in the finished
text of a definition, wherever they stand in it.
-/

namespace Lowering.Code

/-- How many spaces a level of indentation takes unless told otherwise. -/
def defaultIndent : Nat := 4

def expandTabs (width : Nat) (text : Text) : Text :=
  text.flatMap fun c => if c = '\t' then List.replicate width ' ' else [c]

/-- The statements of a body whose calls have these texts. -/
def statements : List Text → List Text
  | [] => ["return none_value();".toList]
  | [last] => ["return ".toList ++ last ++ [';']]
  | first :: next :: rest => (first ++ [';']) :: statements (next :: rest)

def body (table : FunctionTable) (calls : List Call) :
    Except CallFault Text := do
  let texts ← expressions table (calls.map Call.toExpr)
  .ok (Text.join "\n\t".toList (statements texts))

/-- The line that opens a definition. -/
def signatureLine (d : Definition) : Text :=
  valueType ++ ' ' ::
    application (mangle d.name.text)
      (d.params.map fun p => valueType ++ ' ' :: mangle p.text)

/-- A definition before its tabs are expanded. -/
def functionText (d : Definition) (body : Text) : Text :=
  signatureLine d ++ "\n\x7b\n\t".toList ++ body ++ "\n\x7d".toList

/-- A fault in the body is reported within the frame of the definition. -/
def definition (table : FunctionTable) (indent : Nat) (d : Definition) :
    Except Error Text :=
  match body table d.body with
  | .error fault => .error (Error.inFrame { fault := .call fault } d.name.text)
  | .ok text => .ok (expandTabs indent (functionText d text))

def declaration (signature : Signature) : Text :=
  valueType ++ ' ' ::
    application (mangle signature.name) [parameterTypes signature.arity] ++ [';']

/-- One declaration for each function of the program, so that definitions may
stand in any order. -/
def declarations (table : FunctionTable) : Text :=
  Text.join ['\n'] (table.ofUser.map declaration)

/-- The generated part of a unit. -/
structure Functions where
  declarations : Text
  definitions : Text
deriving DecidableEq

/-- Lowers a whole program; the first definition at fault decides the error. -/
def functions (indent : Nat) (program : Program) : Except Error Functions := do
  let table := FunctionTable.ofProgram program
  let texts ← program.mapM (definition table indent)
  .ok { declarations := declarations table,
        definitions := Text.join "\n\n".toList texts }

end Lowering.Code
