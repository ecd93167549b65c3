import Lowering.Proofs.Code.Checking

/-!
# Which call is at fault

The violations of an expression are collected over all of its parts.  Each of
them is nevertheless about a single call: it says what is wrong with that call
and gives its line.  So an error that is reported for a program leads to a
definition, the first that fails, and in it to a call.

## Main results

* `exists_call_of_mem_violations` — every violation is the fault of a call of
  the expression.
* `exists_failsAt_of_unit_eq_error` — the error of a unit is that of a call in
  the first definition that fails.
-/

namespace Lowering

/-! ## Calls at fault -/

/-- What is wrong with a call, its arguments apart. -/
def Call.fault? (table : FunctionTable) (call : Call) : Option CallFault :=
  match table.lookup? call.callee.text with
  | none => some (.undefined call.callee.text call.callee.line)
  | some signature =>
      if call.args.length < signature.arity then
        some (.tooFew call.callee.text call.callee.line signature.arity
          call.args.length)
      else none

theorem Call.line_of_fault? {table : FunctionTable} {call : Call}
    {fault : CallFault} (h : call.fault? table = some fault) :
    fault.line = call.callee.line := by
  unfold Call.fault? at h
  split at h
  · cases h
    rfl
  · split at h <;> cases h
    rfl

namespace Code

mutual

theorem exists_call_of_mem_violations {table : FunctionTable}
    {fault : CallFault} (e : Expr) (h : fault ∈ violations table e) :
    ∃ call ∈ e.calls, call.fault? table = some fault := by
  match e with
  | .int _ => simp [violations] at h
  | .float _ => simp [violations] at h
  | .string _ => simp [violations] at h
  | .name _ => simp [violations] at h
  | .array values => exact exists_call_of_mem_violationsOfAll values h
  | .branch condition truthy falsy =>
      simp only [violations, List.mem_append] at h
      rcases h with (h | h) | h
      · obtain ⟨call, hcall, hfault⟩ := exists_call_of_mem_violations condition h
        exact ⟨call, by simp [Expr.calls, hcall], hfault⟩
      · obtain ⟨call, hcall, hfault⟩ := exists_call_of_mem_violations truthy h
        exact ⟨call, by simp [Expr.calls, hcall], hfault⟩
      · obtain ⟨call, hcall, hfault⟩ := exists_call_of_mem_violations falsy h
        exact ⟨call, by simp [Expr.calls, hcall], hfault⟩
  | .call callee args =>
      rw [violations] at h
      cases hlookup : table.lookup? callee.text with
      | none =>
          rw [hlookup] at h
          obtain rfl := List.mem_singleton.mp h
          exact ⟨⟨callee, args⟩, by simp [Expr.calls],
            by simp [Call.fault?, hlookup]⟩
      | some signature =>
          simp only [hlookup, List.mem_append] at h
          rcases h with h | h
          · obtain ⟨call, hcall, hfault⟩ :=
              exists_call_of_mem_violationsOfAll args h
            exact ⟨call, by simp [Expr.calls, hcall], hfault⟩
          · by_cases hfew : args.length < signature.arity
            · rw [if_pos hfew] at h
              obtain rfl := List.mem_singleton.mp h
              exact ⟨⟨callee, args⟩, by simp [Expr.calls],
                by simp [Call.fault?, hlookup, hfew]⟩
            · simp [hfew] at h

theorem exists_call_of_mem_violationsOfAll {table : FunctionTable}
    {fault : CallFault} (values : List Expr)
    (h : fault ∈ violationsOfAll table values) :
    ∃ call ∈ Expr.callsOfAll values, call.fault? table = some fault := by
  match values with
  | [] => simp [violationsOfAll] at h
  | value :: values =>
      simp only [violationsOfAll, List.mem_append] at h
      rcases h with h | h
      · obtain ⟨call, hcall, hfault⟩ := exists_call_of_mem_violations value h
        exact ⟨call, by simp [Expr.callsOfAll, hcall], hfault⟩
      · obtain ⟨call, hcall, hfault⟩ :=
          exists_call_of_mem_violationsOfAll values h
        exact ⟨call, by simp [Expr.callsOfAll, hcall], hfault⟩

end

/-! ## The first failure of a program -/

/-- Lowering fails with this error, at this call: the definition is the first
that fails, and the call, at whatever depth, is one of its own. -/
structure FailsAt (program : Program) (indent : Nat) (d : Definition)
    (call : Call) (error : Error) : Prop where
  isFirst : ∃ before after, program = before ++ d :: after ∧
    ∀ earlier ∈ before, ∃ text,
      definition (FunctionTable.ofProgram program) indent earlier = .ok text
  fails : definition (FunctionTable.ofProgram program) indent d = .error error
  mem_calls : call ∈ d.calls
  isFault : ∃ fault,
    call.fault? (FunctionTable.ofProgram program) = some fault ∧
      error = reported d fault

theorem exists_failsAt_of_unit_eq_error {fragments : Fragments} {indent : Nat}
    {program : Program} {error : Error}
    (h : unit fragments indent program = .error error) :
    ∃ d call, FailsAt program indent d call error := by
  rw [unit_eq_error_iff, functions_eq_verdict, verdict_eq_error_iff,
    head?_reports_eq_some_iff] at h
  obtain ⟨before, d, after, fault, others, hprogram, hbefore, hfaults, rfl⟩ := h
  have hmem : fault ∈ bodyViolations (FunctionTable.ofProgram program) d := by
    rw [hfaults]
    exact List.mem_cons_self
  obtain ⟨call, hcall, hfault⟩ := exists_call_of_mem_violationsOfAll _ hmem
  refine ⟨d, call, ⟨before, after, hprogram, ?_⟩, ?_, hcall, fault, hfault, rfl⟩
  · intro earlier hearlier
    rw [definition_eq_verdict, hbefore earlier hearlier]
    exact ⟨_, rfl⟩
  · rw [definition_eq_verdict, hfaults]
    rfl

/-- The error tells no place yet; naming the source adds the line of the call
as well. -/
theorem FailsAt.locate_eq {program : Program} {indent : Nat} {d : Definition}
    {call : Call} {error : Error} (h : FailsAt program indent d call error)
    (source : String) :
    error.locate source =
      { fault := error.fault
        context := some
          { source := some source
            line := some call.callee.line
            stack := [d.name.text] } } := by
  obtain ⟨fault, hfault, rfl⟩ := h.isFault
  rw [← Call.line_of_fault? hfault]
  rfl

end Code

end Lowering
