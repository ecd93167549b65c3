import Lowering.Proofs.Code.Printer

/-!
# The layout of generated code

A program brings texts of its own into the generated code: its names, the
digits of its numbers and the contents of its strings.  They are called its
atoms here.  Tabs are expanded over a whole definition, wherever they come from,
so what expansion does depends on the atoms.  A control character can only come
from a name or a number: contents of strings are escaped, and the printer adds
none inside of an expression (`not_mem_printExpression`).  Where names and
numbers have no tab, expansion touches the indentation alone.

## Main results

* `not_mem_printExpression` — the text of an expression has no control character
  that its names and numbers lack.
* `printDefinition_eq_of_lacks_tab` — without tabs in names and numbers, the
  text of a definition is its statements with spaces in front of each.
-/

namespace Lowering

/-! ## Atoms -/

/-- A text that a program brings into the generated code. -/
inductive Atom where
  | name (text : String)
  | number (digits : String)
  | string (content : String)

namespace Expr

mutual

/-- The atoms of an expression, at any depth. -/
def atoms : Expr → List Atom
  | .int digits => [.number digits]
  | .float digits => [.number digits]
  | .string content => [.string content]
  | .name ident => [.name ident.text]
  | .array values => atomsOfAll values
  | .branch condition truthy falsy =>
      condition.atoms ++ truthy.atoms ++ falsy.atoms
  | .call callee args => .name callee.text :: atomsOfAll args

def atomsOfAll : List Expr → List Atom
  | [] => []
  | value :: values => value.atoms ++ atomsOfAll values

end

theorem mem_atomsOfAll {atom : Atom} {values : List Expr} :
    atom ∈ atomsOfAll values ↔ ∃ value ∈ values, atom ∈ value.atoms := by
  induction values with
  | nil => simp [atomsOfAll]
  | cons value values ih => simp [atomsOfAll, ih]

end Expr

def Definition.atoms (d : Definition) : List Atom :=
  .name d.name.text :: d.params.map (fun p => .name p.text)
    ++ Expr.atomsOfAll (d.body.map Call.toExpr)

def Program.atoms (program : Program) : List Atom :=
  program.flatMap Definition.atoms

theorem Program.mem_atoms {program : Program} {d : Definition}
    (hd : d ∈ program) {atom : Atom} (h : atom ∈ d.atoms) :
    atom ∈ program.atoms :=
  List.mem_flatMap.2 ⟨d, hd, h⟩

/-- The character does not get into the generated code as part of a name or a
number.  Strings do not count, since they are escaped. -/
def Atom.Lacks (c : Char) : Atom → Prop
  | .name text => c ∉ text.toList
  | .number digits => c ∉ digits.toList
  | .string _ => True

namespace Code

/-! ## Tabs -/

theorem expandTabs_append (width : Nat) (first second : Text) :
    expandTabs width (first ++ second) =
      expandTabs width first ++ expandTabs width second :=
  List.flatMap_append

theorem expandTabs_eq_self {text : Text} (width : Nat) (h : '\t' ∉ text) :
    expandTabs width text = text := by
  induction text with
  | nil => rfl
  | cons c text ih =>
      simp only [List.mem_cons, not_or] at h
      have hrest : expandTabs width text = text := ih h.2
      rw [expandTabs, List.flatMap_cons, if_neg (Ne.symm h.1),
        ← expandTabs, hrest, List.singleton_append]

theorem expandTabs_join (width : Nat) (sep : Text) (pieces : List Text) :
    expandTabs width (Text.join sep pieces) =
      Text.join (expandTabs width sep) (pieces.map (expandTabs width)) := by
  fun_induction Text.join sep pieces with
  | case1 => rfl
  | case2 piece => rfl
  | case3 piece next rest ih =>
      simp only [expandTabs_append, ih, List.map_cons, Text.join]

section Control

variable {c : Char}

theorem not_mem_of_isControl (hc : StringLiteral.isControl c = true)
    {text : Text} (h : text.any StringLiteral.isControl = false) :
    c ∉ text := by
  intro hmem
  exact List.any_eq_false.1 h c hmem hc

theorem isControl_octalDigit (n : Nat) :
    StringLiteral.isControl (StringLiteral.octalDigit n) = false := by
  have hdigits : ∀ k < 8,
      StringLiteral.isControl (Char.ofNat ('0'.toNat + k)) = false := by
    decide
  exact hdigits (n % 8) (Nat.mod_lt n (by decide))

/-- Whatever has to be escaped is escaped, and nothing else looks like it. -/
theorem isControl_of_mem_escapeChar {c d : Char}
    (h : c ∈ StringLiteral.escapeChar d) :
    StringLiteral.isControl c = false := by
  unfold StringLiteral.escapeChar at h
  split at h
  case h_7 =>
    split at h
    · simp only [StringLiteral.octal, List.mem_cons, List.not_mem_nil,
        or_false] at h
      rcases h with rfl | rfl | rfl | rfl
      · decide
      · exact isControl_octalDigit _
      · exact isControl_octalDigit _
      · exact isControl_octalDigit _
    · rename_i hcontrol
      obtain rfl := List.mem_singleton.1 h
      simpa using hcontrol
  all_goals
    simp only [List.mem_cons, List.not_mem_nil, or_false] at h
    rcases h with rfl | rfl <;> decide

theorem not_mem_quote (hc : StringLiteral.isControl c = true)
    (content : Text) : c ∉ StringLiteral.quote content := by
  apply not_mem_of_isControl hc
  rw [List.any_eq_false]
  intro d hd
  rw [Bool.not_eq_true]
  simp only [StringLiteral.quote, StringLiteral.escape, List.cons_append,
    List.mem_cons, List.mem_append, List.mem_flatMap, List.not_mem_nil,
    or_false] at hd
  rcases hd with rfl | ⟨source, _, hd⟩ | rfl
  · decide
  · exact isControl_of_mem_escapeChar hd
  · decide

theorem not_mem_join {sep : Text} {pieces : List Text} (hsep : c ∉ sep)
    (h : ∀ piece ∈ pieces, c ∉ piece) : c ∉ Text.join sep pieces := by
  fun_induction Text.join sep pieces with
  | case1 => simp
  | case2 piece => exact h piece (List.mem_singleton_self _)
  | case3 piece next rest ih =>
      have hrest := ih fun p hp => h p (List.mem_cons_of_mem _ hp)
      simp [h piece List.mem_cons_self, hsep, hrest]

theorem not_mem_application (hc : StringLiteral.isControl c = true)
    {function : Text} {args : List Text} (hfunction : c ∉ function)
    (h : ∀ arg ∈ args, c ∉ arg) : c ∉ application function args := by
  have hcomma : c ∉ ", ".toList := not_mem_of_isControl hc (by decide)
  have hargs : c ∉ commaList args := not_mem_join hcomma h
  have hopen : c ∉ ['('] := not_mem_of_isControl hc (by decide)
  have hclose : c ∉ [')'] := not_mem_of_isControl hc (by decide)
  simp_all [application]

/-- A function of the runtime around a single argument. -/
theorem not_mem_application_singleton (hc : StringLiteral.isControl c = true)
    {function arg : Text} (h : c ∉ arg)
    (hfunction : function.any StringLiteral.isControl = false) :
    c ∉ application function [arg] := by
  refine not_mem_application hc (not_mem_of_isControl hc hfunction) ?_
  intro item hitem
  rwa [List.mem_singleton.1 hitem]

theorem not_mem_mangle (hc : StringLiteral.isControl c = true) {name : String}
    (h : c ∉ name.toList) : c ∉ mangle name := by
  have hsigil : c ∉ ['_'] := not_mem_of_isControl hc (by decide)
  simp_all [mangle]

theorem not_mem_arrayLiteral (hc : StringLiteral.isControl c = true)
    {values : List Text} (h : ∀ value ∈ values, c ∉ value) :
    c ∉ arrayLiteral values := by
  have hcomma : c ∉ ", ".toList := not_mem_of_isControl hc (by decide)
  have hnull : c ∉ "NULL".toList := not_mem_of_isControl hc (by decide)
  have hvalues : c ∉ commaList (values ++ ["NULL".toList]) := by
    refine not_mem_join hcomma fun value hvalue => ?_
    rcases List.mem_append.1 hvalue with hvalue | hvalue
    · exact h value hvalue
    · rwa [List.mem_singleton.1 hvalue]
  have hopen : c ∉ "(Value* []) \x7b".toList :=
    not_mem_of_isControl hc (by decide)
  have hclose : c ∉ "\x7d".toList := not_mem_of_isControl hc (by decide)
  refine not_mem_application_singleton hc ?_ (by decide)
  simp_all

theorem not_mem_conditional (hc : StringLiteral.isControl c = true)
    {condition truthy falsy : Text} (hcondition : c ∉ condition)
    (htruthy : c ∉ truthy) (hfalsy : c ∉ falsy) :
    c ∉ conditional condition truthy falsy := by
  have htest : c ∉ application "evaluateToBoolean".toList [condition] :=
    not_mem_application_singleton hc hcondition (by decide)
  have hopen : c ∉ ['('] := not_mem_of_isControl hc (by decide)
  have hthen : c ∉ " ? ".toList := not_mem_of_isControl hc (by decide)
  have helse : c ∉ " : ".toList := not_mem_of_isControl hc (by decide)
  have hclose : c ∉ [')'] := not_mem_of_isControl hc (by decide)
  simp_all [conditional]

mutual

theorem not_mem_printExpression (hc : StringLiteral.isControl c = true)
    (e : Expr) (h : ∀ atom ∈ e.atoms, atom.Lacks c) :
    c ∉ printExpression e := by
  match e with
  | .int digits =>
      have hdigits : c ∉ digits.toList := h _ (List.mem_singleton_self _)
      exact not_mem_application_singleton hc hdigits (by decide)
  | .float digits =>
      have hdigits : c ∉ digits.toList := h _ (List.mem_singleton_self _)
      exact not_mem_application_singleton hc hdigits (by decide)
  | .string content =>
      have hquote := not_mem_quote hc content.toList
      exact not_mem_application_singleton hc hquote (by decide)
  | .name ident =>
      exact not_mem_mangle hc (h _ (List.mem_singleton_self _))
  | .array values =>
      exact not_mem_arrayLiteral hc (not_mem_printExpressions hc values h)
  | .branch condition truthy falsy =>
      simp only [Expr.atoms, List.forall_mem_append] at h
      exact not_mem_conditional hc
        (not_mem_printExpression hc condition h.1.1)
        (not_mem_printExpression hc truthy h.1.2)
        (not_mem_printExpression hc falsy h.2)
  | .call callee args =>
      rw [Expr.atoms, List.forall_mem_cons] at h
      exact not_mem_application hc (not_mem_mangle hc h.1)
        (not_mem_printExpressions hc args h.2)

theorem not_mem_printExpressions (hc : StringLiteral.isControl c = true)
    (values : List Expr) (h : ∀ atom ∈ Expr.atomsOfAll values, atom.Lacks c) :
    ∀ text ∈ printExpressions values, c ∉ text := by
  match values with
  | [] => simp [printExpressions]
  | value :: values =>
      rw [Expr.atomsOfAll, List.forall_mem_append] at h
      rw [printExpressions, List.forall_mem_cons]
      exact ⟨not_mem_printExpression hc value h.1,
        not_mem_printExpressions hc values h.2⟩

end

theorem not_mem_statements (hc : StringLiteral.isControl c = true)
    {texts : List Text} (h : ∀ text ∈ texts, c ∉ text) :
    ∀ statement ∈ statements texts, c ∉ statement := by
  have hsemicolon : c ∉ [';'] := not_mem_of_isControl hc (by decide)
  have hreturn : c ∉ "return ".toList := not_mem_of_isControl hc (by decide)
  fun_induction statements texts with
  | case1 =>
      intro statement hstatement
      rw [List.mem_singleton.1 hstatement]
      exact not_mem_of_isControl hc (by decide)
  | case2 last =>
      intro statement hstatement
      rw [List.mem_singleton.1 hstatement]
      simp_all
  | case3 first next rest ih =>
      rw [List.forall_mem_cons] at h ⊢
      exact ⟨by simp_all, ih h.2⟩

theorem not_mem_of_mem_bodyStatements (hc : StringLiteral.isControl c = true)
    {d : Definition} (h : ∀ atom ∈ d.atoms, atom.Lacks c) :
    ∀ statement ∈ statements (printExpressions (d.body.map Call.toExpr)),
      c ∉ statement := by
  have hbody : ∀ atom ∈ Expr.atomsOfAll (d.body.map Call.toExpr),
      atom.Lacks c := fun atom hatom =>
    h atom (List.mem_append_right _ hatom)
  exact not_mem_statements hc (not_mem_printExpressions hc _ hbody)

theorem not_mem_signatureLine (hc : StringLiteral.isControl c = true)
    {d : Definition} (h : ∀ atom ∈ d.atoms, atom.Lacks c) :
    c ∉ signatureLine d := by
  have htype : c ∉ valueType := not_mem_of_isControl hc (by decide)
  have hspace : c ∉ [' '] := not_mem_of_isControl hc (by decide)
  simp only [Definition.atoms, List.cons_append, List.forall_mem_cons,
    List.forall_mem_append, List.forall_mem_map] at h
  have hheader : c ∉ application (mangle d.name.text)
      (d.params.map fun p => valueType ++ ' ' :: mangle p.text) := by
    refine not_mem_application hc (not_mem_mangle hc h.1) ?_
    rw [List.forall_mem_map]
    intro p hp
    have hname : c ∉ mangle p.text := not_mem_mangle hc (h.2.1 p hp)
    simp_all
  simp_all [signatureLine]

end Control

/-! ## Definitions without tabs -/

/-- The indentation of a statement. -/
def spaces (width : Nat) : Text := List.replicate width ' '

theorem printDefinition_eq_of_lacks_tab (indent : Nat) {d : Definition}
    (h : ∀ atom ∈ d.atoms, atom.Lacks '\t') :
    printDefinition indent d =
      signatureLine d ++ "\n\x7b\n".toList ++ spaces indent ++
        Text.join ('\n' :: spaces indent)
          (statements (printExpressions (d.body.map Call.toExpr))) ++
        "\n\x7d".toList := by
  have hstatements := not_mem_of_mem_bodyStatements (by decide) h
  have hmap : (statements (printExpressions (d.body.map Call.toExpr))).map
      (expandTabs indent) =
        statements (printExpressions (d.body.map Call.toExpr)) := by
    rw [List.map_congr_left fun statement hmem =>
      expandTabs_eq_self indent (hstatements statement hmem), List.map_id']
  have hline : expandTabs indent "\n\t".toList = '\n' :: spaces indent := by
    simp [expandTabs, spaces]
  have hopen : expandTabs indent "\n\x7b\n\t".toList =
      "\n\x7b\n".toList ++ spaces indent := by
    simp [expandTabs, spaces]
  have hclose : expandTabs indent "\n\x7d".toList = "\n\x7d".toList :=
    expandTabs_eq_self indent (by decide)
  rw [printDefinition, functionText, expandTabs_append, expandTabs_append,
    expandTabs_append,
    expandTabs_eq_self indent (not_mem_signatureLine (by decide) h), hopen,
    hclose, printBody, expandTabs_join, hline, hmap,
    List.append_assoc _ _ (spaces _)]

end Code

end Lowering
