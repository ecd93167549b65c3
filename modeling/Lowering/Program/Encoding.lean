import Lowering.Program.Basic
import Lowering.MessagePack.Codec

/-!
# Programs as MessagePack

A record is written as a map from field names to values, with every field
present and in the order of its declaration.  An expression is one map whose
first entry, `type`, gives its kind.
-/

namespace Lowering

open MessagePack (Value)

/-- A map with the field names as keys. -/
def recordValue (fields : List (String × Value)) : Value :=
  .map (fields.map fun (name, value) => (Value.ofString name, value))

namespace Ident

def fieldNames : List String := ["value", "line"]

def toValue (ident : Ident) : Value :=
  recordValue
    [("value", .ofString ident.text), ("line", .ofNat ident.line.toNat)]

end Ident

namespace Expr

/-- The fields of each kind, apart from the tag. -/
def Kind.fieldNames : Kind → List String
  | .int | .float | .string => ["value"]
  | .name => Ident.fieldNames
  | .array => ["values"]
  | .branch => ["condition", "truthy", "falsy"]
  | .call => ["name", "args"]

/-- A map that starts with the kind. -/
def taggedValue (kind : Kind) (fields : List (String × Value)) : Value :=
  recordValue (("type", .ofString kind.label) :: fields)

mutual

def toValue : Expr → Value
  | .int digits => taggedValue .int [("value", .ofString digits)]
  | .float digits => taggedValue .float [("value", .ofString digits)]
  | .string content => taggedValue .string [("value", .ofString content)]
  | .name ident =>
      taggedValue .name
        [("value", .ofString ident.text), ("line", .ofNat ident.line.toNat)]
  | .array values => taggedValue .array [("values", .array (toValues values))]
  | .branch condition truthy falsy =>
      taggedValue .branch
        [("condition", condition.toValue), ("truthy", truthy.toValue),
          ("falsy", falsy.toValue)]
  | .call callee args =>
      taggedValue .call
        [("name", callee.toValue), ("args", .array (toValues args))]

def toValues : List Expr → List Value
  | [] => []
  | value :: values => value.toValue :: toValues values

end

end Expr

namespace Call

def fieldNames : List String := ["name", "args"]

def toValue (call : Call) : Value :=
  recordValue
    [("name", call.callee.toValue), ("args", .array (Expr.toValues call.args))]

end Call

namespace Definition

def fieldNames : List String := ["name", "args", "body"]

def toValue (d : Definition) : Value :=
  recordValue
    [("name", d.name.toValue), ("args", .array (d.params.map Ident.toValue)),
      ("body", .array (d.body.map Call.toValue))]

end Definition

namespace Program

def toValue (program : Program) : Value :=
  .array (program.map Definition.toValue)

def toBytes (program : Program) : Bytes :=
  (toValue program).write

end Program

end Lowering
