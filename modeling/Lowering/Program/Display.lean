import Lowering.Program.Basic

/-!
# How programs are shown

A short notation for people: calls and arrays with comma-separated parts, a
branch as a conditional, a definition as an equation.  Strings are quoted but
not escaped.
-/

namespace Lowering

namespace Expr

mutual

def display : Expr → String
  | .int digits => digits
  | .float digits => digits
  | .string content => "\"" ++ content ++ "\""
  | .name ident => ident.text
  | .array values => "[" ++ ", ".intercalate (displayAll values) ++ "]"
  | .branch condition truthy falsy =>
      condition.display ++ " ? " ++ truthy.display ++ " : " ++ falsy.display
  | .call callee args =>
      callee.text ++ "(" ++ ", ".intercalate (displayAll args) ++ ")"

def displayAll : List Expr → List String
  | [] => []
  | value :: values => value.display :: displayAll values

end

end Expr

def Call.display (call : Call) : String :=
  call.toExpr.display

def Definition.display (d : Definition) : String :=
  d.name.text ++ "(" ++ ", ".intercalate (d.params.map Ident.text) ++ ") = ["
    ++ ", ".intercalate (d.body.map Call.display) ++ "]"

end Lowering
