import Lowering.Code.Unit
import Lowering.Proofs.Code.Printer

/-!
# Lowering checks everything, then prints

The lowering of an expression interleaves two tasks, the checks of its calls
and the writing of its text.  This file takes them apart.  `violations` lists
everything that is wrong with an expression in the order in which it is found,
and `verdict` makes a result out of such a list and a text: the text if the
list is empty, and its first fault if it is not.  Every stage of lowering then
is a verdict on its violations and its printed text.

Verdicts compose: in a sequence the lists are appended and only the last value
counts (`verdict_bind`).  This one law carries the induction over expressions
and also the passage from expressions to bodies and to whole programs.

## Main results

* `expression_eq_verdict` — an expression is lowered to its printed text unless
  it has a violation; the first one is the fault reported.
* `functions_eq_verdict` — the same for a program, where each fault is reported
  within the frame of its definition.
* `violations_eq_nil_iff` — there is no violation exactly when every call, at
  whatever depth, fits the table.
* `functions_checks_then_prints` — all of this in terms of programs.
-/

namespace Lowering

/-! ## The calls of an expression -/

namespace Expr

mutual

/-- All calls in an expression, at any depth. -/
def calls : Expr → List Call
  | .int _ => []
  | .float _ => []
  | .string _ => []
  | .name _ => []
  | .array values => callsOfAll values
  | .branch condition truthy falsy =>
      condition.calls ++ truthy.calls ++ falsy.calls
  | .call callee args => { callee, args } :: callsOfAll args

def callsOfAll : List Expr → List Call
  | [] => []
  | value :: values => value.calls ++ callsOfAll values

end

end Expr

/-- All calls in the body of a definition, at any depth. -/
def Definition.calls (d : Definition) : List Call :=
  Expr.callsOfAll (d.body.map Call.toExpr)

/-- The function is known and gets as many arguments as it takes. -/
def Call.Fits (table : FunctionTable) (call : Call) : Prop :=
  ∃ signature, table.lookup? call.callee.text = some signature ∧
    signature.arity ≤ call.args.length

namespace Code

/-! ## Violations -/

mutual

/-- What is wrong with the calls of an expression, in the order in which it is
found.  An unknown function hides the faults of its arguments; a lack of
arguments comes after them. -/
def violations (table : FunctionTable) : Expr → List CallFault
  | .int _ => []
  | .float _ => []
  | .string _ => []
  | .name _ => []
  | .array values => violationsOfAll table values
  | .branch condition truthy falsy =>
      violations table condition ++ violations table truthy
        ++ violations table falsy
  | .call callee args =>
      match table.lookup? callee.text with
      | none => [.undefined callee.text callee.line]
      | some signature =>
          violationsOfAll table args ++
            if args.length < signature.arity then
              [.tooFew callee.text callee.line signature.arity args.length]
            else []

def violationsOfAll (table : FunctionTable) : List Expr → List CallFault
  | [] => []
  | value :: values => violations table value ++ violationsOfAll table values

end

/-- What is wrong with the body of a definition. -/
def bodyViolations (table : FunctionTable) (d : Definition) :
    List CallFault :=
  violationsOfAll table (d.body.map Call.toExpr)

mutual

theorem violations_eq_nil_iff (table : FunctionTable) (e : Expr) :
    violations table e = [] ↔ ∀ call ∈ e.calls, call.Fits table := by
  match e with
  | .int _ => simp [violations, Expr.calls]
  | .float _ => simp [violations, Expr.calls]
  | .string _ => simp [violations, Expr.calls]
  | .name _ => simp [violations, Expr.calls]
  | .array values =>
      simpa only [violations, Expr.calls] using
        violationsOfAll_eq_nil_iff table values
  | .branch condition truthy falsy =>
      simp only [violations, Expr.calls, List.append_eq_nil_iff,
        List.forall_mem_append, violations_eq_nil_iff table condition,
        violations_eq_nil_iff table truthy, violations_eq_nil_iff table falsy]
  | .call callee args =>
      simp only [violations, Expr.calls, List.forall_mem_cons, Call.Fits]
      cases table.lookup? callee.text with
      | none => simp
      | some signature =>
          have hargs := violationsOfAll_eq_nil_iff table args
          simp only [Call.Fits] at hargs
          simp only [List.append_eq_nil_iff, hargs, ite_eq_right_iff,
            List.cons_ne_nil, imp_false, Nat.not_lt, Option.some.injEq,
            exists_eq_left']
          exact and_comm

theorem violationsOfAll_eq_nil_iff (table : FunctionTable)
    (values : List Expr) :
    violationsOfAll table values = [] ↔
      ∀ call ∈ Expr.callsOfAll values, call.Fits table := by
  match values with
  | [] => simp [violationsOfAll, Expr.callsOfAll]
  | value :: values =>
      simp only [violationsOfAll, Expr.callsOfAll, List.append_eq_nil_iff,
        List.forall_mem_append, violations_eq_nil_iff table value,
        violationsOfAll_eq_nil_iff table values]

end

/-! ## Verdicts -/

section Verdict

variable {ε α β : Type}

/-- The value, unless there is a fault; of several the first counts. -/
def verdict (faults : List ε) (value : α) : Except ε α :=
  match faults with
  | [] => .ok value
  | fault :: _ => .error fault

theorem verdict_eq_ok_iff {faults : List ε} {value result : α} :
    verdict faults value = .ok result ↔ faults = [] ∧ value = result := by
  cases faults <;> simp [verdict]

theorem verdict_eq_error_iff {faults : List ε} {value : α} {fault : ε} :
    verdict faults value = .error fault ↔ faults.head? = some fault := by
  cases faults <;> simp [verdict]

/-- Checks made one after the other are one check of all of them.  What comes
later is asked for at the value alone, since nothing else can get there. -/
theorem verdict_bind {faults later : List ε} {value : α} {result : β}
    {next : α → Except ε β} (hnext : next value = verdict later result) :
    (verdict faults value >>= next) = verdict (faults ++ later) result := by
  cases faults with
  | nil => exact hnext
  | cons fault faults => rfl

/-- A step that cannot fail only changes the value. -/
theorem verdict_bind_ok {faults : List ε} {value : α} {result : β}
    {next : α → Except ε β} (hnext : next value = .ok result) :
    (verdict faults value >>= next) = verdict faults result := by
  cases faults with
  | nil => exact hnext
  | cons fault faults => rfl

theorem mapM_eq_verdict {f : α → Except ε β} {faults : α → List ε}
    {value : α → β} (hf : ∀ item, f item = verdict (faults item) (value item))
    (items : List α) :
    items.mapM f = verdict (items.flatMap faults) (items.map value) := by
  induction items with
  | nil => rfl
  | cons item items ih =>
      rw [List.mapM_cons, hf item, ih, List.flatMap_cons]
      apply verdict_bind
      exact verdict_bind_ok rfl

end Verdict

/-! ## Every stage is a verdict -/

theorem resolve_bind_eq_verdict {β : Type} (table : FunctionTable)
    (callee : Ident) {next : Signature → Except CallFault β}
    {faults : Signature → List CallFault} {result : β}
    (hnext : ∀ signature, next signature = verdict (faults signature) result) :
    (resolve table callee >>= next) =
      verdict
        (match table.lookup? callee.text with
          | none => [.undefined callee.text callee.line]
          | some signature => faults signature)
        result := by
  unfold resolve
  cases table.lookup? callee.text with
  | none => rfl
  | some signature => exact hnext signature

mutual

theorem expression_eq_verdict (table : FunctionTable) (e : Expr) :
    expression table e = verdict (violations table e) (printExpression e) := by
  match e with
  | .int _ => rfl
  | .float _ => rfl
  | .string _ => rfl
  | .name _ => rfl
  | .array values =>
      rw [expression, expressions_eq_verdict table values, violations]
      exact verdict_bind_ok rfl
  | .branch condition truthy falsy =>
      rw [expression, expression_eq_verdict table condition,
        expression_eq_verdict table truthy,
        expression_eq_verdict table falsy, violations, List.append_assoc]
      apply verdict_bind
      apply verdict_bind
      exact verdict_bind_ok rfl
  | .call callee args =>
      rw [expression, violations]
      apply resolve_bind_eq_verdict
      intro signature
      rw [expressions_eq_verdict table args]
      apply verdict_bind
      rw [length_printExpressions]
      split <;> rfl

theorem expressions_eq_verdict (table : FunctionTable) (values : List Expr) :
    expressions table values =
      verdict (violationsOfAll table values) (printExpressions values) := by
  match values with
  | [] => rfl
  | value :: values =>
      rw [expressions, expression_eq_verdict table value,
        expressions_eq_verdict table values, violationsOfAll]
      apply verdict_bind
      exact verdict_bind_ok rfl

end

theorem body_eq_verdict (table : FunctionTable) (d : Definition) :
    body table d.body = verdict (bodyViolations table d) (printBody d.body) := by
  rw [body, expressions_eq_verdict, bodyViolations]
  exact verdict_bind_ok rfl

/-- A fault as it is reported from within a definition. -/
def reported (d : Definition) (fault : CallFault) : Error where
  fault := .call fault
  context := some { source := none, line := none, stack := [d.name.text] }

theorem definition_eq_verdict (table : FunctionTable) (indent : Nat)
    (d : Definition) :
    definition table indent d =
      verdict ((bodyViolations table d).map (reported d))
        (printDefinition indent d) := by
  rw [definition, body_eq_verdict]
  cases bodyViolations table d with
  | nil => rfl
  | cons fault faults => rfl

theorem functions_eq_verdict (indent : Nat) (program : Program) :
    functions indent program =
      verdict
        (program.flatMap fun d =>
          (bodyViolations (FunctionTable.ofProgram program) d).map (reported d))
        { declarations := declarations (FunctionTable.ofProgram program)
          definitions := printDefinitions indent program } := by
  rw [functions, mapM_eq_verdict
    (definition_eq_verdict (FunctionTable.ofProgram program) indent) program]
  exact verdict_bind_ok rfl

theorem unit_eq_map (fragments : Fragments) (indent : Nat)
    (program : Program) :
    unit fragments indent program =
      (functions indent program).map (layout (cleaned fragments)) := by
  rw [unit]
  cases functions indent program with
  | error _ => rfl
  | ok _ => rfl

theorem unit_eq_ok_iff {fragments : Fragments} {indent : Nat}
    {program : Program} {text : Text} :
    unit fragments indent program = .ok text ↔
      ∃ code, functions indent program = .ok code ∧
        layout (cleaned fragments) code = text := by
  rw [unit_eq_map]
  cases functions indent program with
  | error error => simp [Except.map]
  | ok code => simp [Except.map]

theorem unit_eq_error_iff {fragments : Fragments} {indent : Nat}
    {program : Program} {error : Error} :
    unit fragments indent program = .error error ↔
      functions indent program = .error error := by
  rw [unit_eq_map]
  cases functions indent program with
  | error other => simp [Except.map]
  | ok code => simp [Except.map]

/-! ## Whole programs -/

/-- The first report of a program is the first violation of the first
definition that has one. -/
theorem head?_reports_eq_some_iff (table : FunctionTable) (program : Program)
    (error : Error) :
    (program.flatMap fun d =>
        (bodyViolations table d).map (reported d)).head? = some error ↔
      ∃ before d after fault others,
        program = before ++ d :: after ∧
        (∀ earlier ∈ before, bodyViolations table earlier = []) ∧
        bodyViolations table d = fault :: others ∧
        error = reported d fault := by
  rw [List.head?_flatMap, List.findSome?_eq_some_iff]
  constructor
  · intro h
    obtain ⟨before, d, after, hprogram, hd, hbefore⟩ := h
    obtain ⟨fault, others, hfaults, rfl⟩ : ∃ fault others,
        bodyViolations table d = fault :: others ∧
          error = reported d fault := by
      cases hv : bodyViolations table d with
      | nil => simp [hv] at hd
      | cons fault others =>
          simp only [hv, List.map_cons, List.head?_cons,
            Option.some.injEq] at hd
          exact ⟨fault, others, rfl, hd.symm⟩
    refine ⟨before, d, after, fault, others, hprogram, ?_, hfaults, rfl⟩
    intro earlier hmem
    simpa using hbefore earlier hmem
  · intro h
    obtain ⟨before, d, after, fault, others, hprogram, hbefore, hfaults, rfl⟩ :=
      h
    refine ⟨before, d, after, hprogram, by simp [hfaults], ?_⟩
    intro earlier hmem
    simp [hbefore earlier hmem]

/--
A program is lowered exactly when each of its calls, at any depth, fits the
table, and then to the text of the printer, which knows neither the table nor a
line.  Otherwise the error is the first violation of the first definition that
has one, in the frame of this definition alone.
-/
theorem functions_checks_then_prints (indent : Nat) (program : Program) :
    let table := FunctionTable.ofProgram program
    ((∃ code, functions indent program = .ok code) ↔
      ∀ d ∈ program, ∀ call ∈ d.calls, call.Fits table) ∧
    (∀ code, functions indent program = .ok code →
      code.declarations = declarations table ∧
      code.definitions = printDefinitions indent program) ∧
    printDefinitions indent program.withoutLines =
      printDefinitions indent program ∧
    (∀ error, functions indent program = .error error ↔
      ∃ before d after fault others,
        program = before ++ d :: after ∧
        (∀ earlier ∈ before, bodyViolations table earlier = []) ∧
        bodyViolations table d = fault :: others ∧
        error = {
          fault := .call fault
          context := some
            { source := none, line := none, stack := [d.name.text] } }) ∧
    ∀ fragments, unit fragments indent program =
      (functions indent program).map (layout (cleaned fragments)) := by
  intro table
  have hverdict := functions_eq_verdict indent program
  refine ⟨?_, ?_, printDefinitions_withoutLines indent program, ?_,
    fun fragments => unit_eq_map fragments indent program⟩
  · simp only [hverdict, verdict_eq_ok_iff, exists_and_left, exists_eq',
      and_true, List.flatMap_eq_nil_iff, List.map_eq_nil_iff]
    exact forall₂_congr fun d _ => violationsOfAll_eq_nil_iff table _
  · intro code hcode
    rw [hverdict, verdict_eq_ok_iff] at hcode
    obtain ⟨-, rfl⟩ := hcode
    exact ⟨rfl, rfl⟩
  · intro error
    rw [hverdict, verdict_eq_error_iff]
    exact head?_reports_eq_some_iff table program error

end Code

end Lowering
