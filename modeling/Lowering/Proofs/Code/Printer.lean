import Lowering.Code.Function

/-!
# Printing without checking

Lowering checks every call while it writes the text.  The printer below writes
the same text and checks nothing: it is total, it takes no function table, and
it never looks at the line of an identifier.  The last point is not visible in
its type, so it is stated as a law: a program and the program with all its
lines erased are printed alike.

## Main results

* `printDefinitions_withoutLines` — erasing the lines of a program leaves its
  printed text as it is.
-/

namespace Lowering

/-! ## Erasing lines -/

def Ident.withoutLine (ident : Ident) : Ident := { text := ident.text }

namespace Expr

mutual

/-- The expression with every identifier on line 0. -/
def withoutLines : Expr → Expr
  | .int digits => .int digits
  | .float digits => .float digits
  | .string content => .string content
  | .name ident => .name ident.withoutLine
  | .array values => .array (allWithoutLines values)
  | .branch condition truthy falsy =>
      .branch condition.withoutLines truthy.withoutLines falsy.withoutLines
  | .call callee args => .call callee.withoutLine (allWithoutLines args)

def allWithoutLines : List Expr → List Expr
  | [] => []
  | value :: values => value.withoutLines :: allWithoutLines values

end

end Expr

def Call.withoutLines (call : Call) : Call where
  callee := call.callee.withoutLine
  args := Expr.allWithoutLines call.args

def Definition.withoutLines (d : Definition) : Definition where
  name := d.name.withoutLine
  params := d.params.map Ident.withoutLine
  body := d.body.map Call.withoutLines

def Program.withoutLines (program : Program) : Program :=
  program.map Definition.withoutLines

namespace Code

/-! ## The printer -/

mutual

/-- The text of an expression, whatever its calls name. -/
def printExpression : Expr → Text
  | .int digits => application "int_value".toList [digits.toList]
  | .float digits => application "float_value".toList [digits.toList]
  | .string content =>
      application "string_value".toList [StringLiteral.quote content.toList]
  | .name ident => mangle ident.text
  | .array values => arrayLiteral (printExpressions values)
  | .branch condition truthy falsy =>
      conditional (printExpression condition) (printExpression truthy)
        (printExpression falsy)
  | .call callee args =>
      application (mangle callee.text) (printExpressions args)

def printExpressions : List Expr → List Text
  | [] => []
  | value :: values => printExpression value :: printExpressions values

end

/-- The statements of a body, before tabs are expanded. -/
def printBody (calls : List Call) : Text :=
  Text.join "\n\t".toList
    (statements (printExpressions (calls.map Call.toExpr)))

def printDefinition (indent : Nat) (d : Definition) : Text :=
  expandTabs indent (functionText d (printBody d.body))

/-- The definitions of a program, a blank line between neighbours. -/
def printDefinitions (indent : Nat) (program : Program) : Text :=
  Text.join "\n\n".toList (program.map (printDefinition indent))

theorem printExpressions_eq_map (values : List Expr) :
    printExpressions values = values.map printExpression := by
  induction values with
  | nil => rfl
  | cons value values ih => rw [printExpressions, ih, List.map_cons]

@[simp] theorem length_printExpressions (values : List Expr) :
    (printExpressions values).length = values.length := by
  rw [printExpressions_eq_map, List.length_map]

/-! ## No line is ever looked at -/

mutual

theorem printExpression_withoutLines (e : Expr) :
    printExpression e.withoutLines = printExpression e := by
  match e with
  | .int _ => rfl
  | .float _ => rfl
  | .string _ => rfl
  | .name _ => rfl
  | .array values =>
      simp only [Expr.withoutLines, printExpression,
        printExpressions_withoutLines values]
  | .branch condition truthy falsy =>
      simp only [Expr.withoutLines, printExpression,
        printExpression_withoutLines condition,
        printExpression_withoutLines truthy,
        printExpression_withoutLines falsy]
  | .call callee args =>
      simp only [Expr.withoutLines, printExpression, Ident.withoutLine,
        printExpressions_withoutLines args]

theorem printExpressions_withoutLines (values : List Expr) :
    printExpressions (Expr.allWithoutLines values) = printExpressions values := by
  match values with
  | [] => rfl
  | value :: values =>
      simp only [Expr.allWithoutLines, printExpressions,
        printExpression_withoutLines value,
        printExpressions_withoutLines values]

end

theorem printBody_withoutLines (calls : List Call) :
    printBody (calls.map Call.withoutLines) = printBody calls := by
  have htexts : printExpressions ((calls.map Call.withoutLines).map Call.toExpr) =
      printExpressions (calls.map Call.toExpr) := by
    induction calls with
    | nil => rfl
    | cons call calls ih =>
        have hcall : printExpression call.withoutLines.toExpr =
            printExpression call.toExpr :=
          printExpression_withoutLines call.toExpr
        simp only [List.map_cons, printExpressions, hcall, ih]
  rw [printBody, htexts, printBody]

theorem printDefinition_withoutLines (indent : Nat) (d : Definition) :
    printDefinition indent d.withoutLines = printDefinition indent d := by
  have hsignature : signatureLine d.withoutLines = signatureLine d := by
    simp only [signatureLine, Definition.withoutLines, Ident.withoutLine,
      List.map_map, Function.comp_def]
  have hbody : printBody d.withoutLines.body = printBody d.body :=
    printBody_withoutLines d.body
  rw [printDefinition, functionText, hsignature, hbody, printDefinition,
    functionText]

theorem printDefinitions_withoutLines (indent : Nat) (program : Program) :
    printDefinitions indent program.withoutLines =
      printDefinitions indent program := by
  have htexts : program.withoutLines.map (printDefinition indent) =
      program.map (printDefinition indent) := by
    simp only [Program.withoutLines, List.map_map, Function.comp_def,
      printDefinition_withoutLines]
  rw [printDefinitions, htexts, printDefinitions]

end Code

end Lowering
