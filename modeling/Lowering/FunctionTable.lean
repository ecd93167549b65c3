import Lowering.Program.Basic

/-!
# The function table

A table lists the functions that a call may name, those of the runtime before
those of the program.  The first entry of a name counts, so a definition that
takes the name of a runtime function, or of an earlier definition, is never
found.
-/

namespace Lowering

/-- A function as its callers see it. -/
structure Signature where
  name : String
  arity : Nat
  userDefined : Bool
deriving DecidableEq

def Definition.signature (d : Definition) : Signature where
  name := d.name.text
  arity := d.arity
  userDefined := true

abbrev FunctionTable := List Signature

namespace FunctionTable

/-- The functions that the runtime provides, with their arities. -/
def runtimeFunctions : List (String × Nat) :=
  [("null", 0), ("false", 0), ("true", 0),
    ("add", 2), ("sub", 2), ("mul", 2), ("div", 2), ("mod", 2), ("pow", 2),
    ("sqrt", 1),
    ("string", 1), ("at", 2), ("length", 1), ("join", 2), ("split", 2),
    ("map", 1), ("reduce", 3), ("reduceRight", 3), ("repeat", 2),
    ("if", 3), ("return", 1), ("print", 1), ("input", 1)]

/-- A table over a runtime of one's own. -/
def build (runtime : List (String × Nat)) (program : Program) : FunctionTable :=
  runtime.map (fun (name, arity) => { name, arity, userDefined := false })
    ++ program.map Definition.signature

def ofProgram (program : Program) : FunctionTable :=
  build runtimeFunctions program

def lookup? (table : FunctionTable) (name : String) : Option Signature :=
  table.find? fun signature => signature.name = name

def contains (table : FunctionTable) (name : String) : Bool :=
  (table.lookup? name).isSome

/-- The functions of the program, in the order of their definitions. -/
def ofUser (table : FunctionTable) : List Signature :=
  table.filter fun signature => signature.userDefined

/-- The functions of the runtime. -/
def ofRuntime (table : FunctionTable) : List Signature :=
  table.filter fun signature => !signature.userDefined

end FunctionTable

end Lowering
