import Lowering.Code.Name
import Lowering.Code.StringLiteral
import Lowering.Error
import Lowering.FunctionTable

/-!
# Expressions as code

Each expression becomes one expression of the target.  Calls are checked on the
way: the function has to be known, which is asked before its arguments are
looked at, and it has to get at least as many arguments as it takes, which is
asked after.  The first fault in this order is the one reported.
-/

namespace Lowering.Code

/-- A list of values, closed by a null. -/
def arrayLiteral (values : List Text) : Text :=
  application "array_value".toList
    [ "(Value* []) \x7b".toList ++ commaList (values ++ ["NULL".toList])
        ++ "\x7d".toList ]

def conditional (condition truthy falsy : Text) : Text :=
  '(' :: application "evaluateToBoolean".toList [condition]
    ++ " ? ".toList ++ truthy ++ " : ".toList ++ falsy ++ [')']

/-- The function that a call names. -/
def resolve (table : FunctionTable) (callee : Ident) :
    Except CallFault Signature :=
  match table.lookup? callee.text with
  | some signature => .ok signature
  | none => .error (.undefined callee.text callee.line)

mutual

def expression (table : FunctionTable) : Expr → Except CallFault Text
  | .int digits => .ok (application "int_value".toList [digits.toList])
  | .float digits => .ok (application "float_value".toList [digits.toList])
  | .string content =>
      .ok (application "string_value".toList
        [StringLiteral.quote content.toList])
  | .name ident => .ok (mangle ident.text)
  | .array values => do
      let values ← expressions table values
      .ok (arrayLiteral values)
  | .branch condition truthy falsy => do
      let condition ← expression table condition
      let truthy ← expression table truthy
      let falsy ← expression table falsy
      .ok (conditional condition truthy falsy)
  | .call callee args => do
      let signature ← resolve table callee
      let args ← expressions table args
      if args.length < signature.arity then
        .error (.tooFew callee.text callee.line signature.arity args.length)
      else
        .ok (application (mangle callee.text) args)

def expressions (table : FunctionTable) :
    List Expr → Except CallFault (List Text)
  | [] => .ok []
  | value :: values => do
      let value ← expression table value
      let values ← expressions table values
      .ok (value :: values)

end

def call (table : FunctionTable) (call : Call) : Except CallFault Text :=
  expression table call.toExpr

end Lowering.Code
