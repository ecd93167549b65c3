import Lowering.Proofs.Code.Layout
import Lowering.Proofs.Code.LiteralReading
import Lowering.Proofs.Code.Resolution
import Lowering.Proofs.Text.Spelling

/-!
# Generated code can be read in one way only

Different programs have different code, up to the lines of their identifiers,
provided that names and numbers are made of the usual characters and no string
has a NUL in front of an octal digit.

The argument is unique readability.  A printed item followed by some text is
taken apart from the left, and each time the text in front determines what was
printed there and where it ends (`Text.Spelling.Readable`).  For expressions
this is an induction; names are the only items that end where the text around
them says so, and that text never goes on with a character of a name.  Lists are
taken apart by one lemma, `Text.Spelling.join_inj`, whether they hold arguments,
elements, parameters or definitions.  Tabs are expanded before anything is read,
so the layout of a definition is read as it was expanded.

## Main results

* `readable_expression` — an expression can be read off the front of a text.
* `readable_definition` — so can a definition.
* `functions_definitions_inj` — programs with the same code are the same up to
  lines.
-/

namespace Lowering

/-! ## Plain programs -/

namespace Code

def isNameChar (c : Char) : Bool :=
  c.isAlphanum || c = '_'

def isNumberChar (c : Char) : Bool :=
  c.isAlphanum || c = '.' || c = '+' || c = '-'

end Code

/-- The atom keeps to the characters that its place in the code is made for. -/
def Atom.Plain : Atom → Prop
  | .name text => text.toList.all Code.isNameChar = true
  | .number digits => digits.toList.all Code.isNumberChar = true
  | .string content => Code.StringLiteral.NulsApart content.toList

instance : DecidablePred Atom.Plain
  | .name text =>
      inferInstanceAs (Decidable (text.toList.all Code.isNameChar = true))
  | .number digits =>
      inferInstanceAs (Decidable (digits.toList.all Code.isNumberChar = true))
  | .string content =>
      inferInstanceAs (Decidable (List.IsChain _ content.toList))

theorem Atom.Plain.lacks_tab {atom : Atom} (h : atom.Plain) :
    atom.Lacks '\t' := by
  cases atom with
  | name text =>
      exact fun hmem => absurd (List.all_eq_true.1 h _ hmem) (by decide)
  | number digits =>
      exact fun hmem => absurd (List.all_eq_true.1 h _ hmem) (by decide)
  | string content => exact trivial

namespace Code

open Text (Spelling StopsAt stopsAt_cons append_inj_of_stopsAt)

/-! ## Words -/

theorem mangle_append_inj {a b : String} {r r' : Text}
    (ha : (Atom.name a).Plain) (hb : (Atom.name b).Plain)
    (hr : StopsAt isNameChar r) (hr' : StopsAt isNameChar r')
    (h : mangle a ++ r = mangle b ++ r') : a = b ∧ r = r' := by
  obtain ⟨hword, hrest⟩ :=
    append_inj_of_stopsAt ha hb hr hr' (List.cons.inj h).2
  exact ⟨String.toList_inj.1 hword, hrest⟩

theorem application_append (function : Text) (args : List Text) (r : Text) :
    application function args ++ r =
      function ++ '(' :: (commaList args ++ ')' :: r) := by
  simp [application]

/-- What is left to compare once a function of the runtime is taken off. -/
theorem application_singleton_inj {function arg arg' r r' : Text}
    (h : application function [arg] ++ r = application function [arg'] ++ r') :
    arg ++ ')' :: r = arg' ++ ')' :: r' := by
  rw [application_append, application_append] at h
  exact (List.cons.inj (List.append_cancel_left h)).2

theorem number_inj {function : Text} {digits digits' : String} {r r' : Text}
    (hd : (Atom.number digits).Plain) (hd' : (Atom.number digits').Plain)
    (h : application function [digits.toList] ++ r =
      application function [digits'.toList] ++ r') :
    digits = digits' ∧ r = r' := by
  obtain ⟨hdigits, hrest⟩ := append_inj_of_stopsAt hd hd'
    (stopsAt_cons (by decide) r) (stopsAt_cons (by decide) r')
    (application_singleton_inj h)
  exact ⟨String.toList_inj.1 hdigits, (List.cons.inj hrest).2⟩

theorem string_inj {function : Text} {content content' : String} {r r' : Text}
    (hc : (Atom.string content).Plain) (hc' : (Atom.string content').Plain)
    (h : application function [StringLiteral.quote content.toList] ++ r =
      application function [StringLiteral.quote content'.toList] ++ r') :
    content = content' ∧ r = r' := by
  obtain ⟨hcontent, hrest⟩ := StringLiteral.quote_append_inj hc hc'
    (application_singleton_inj h)
  exact ⟨String.toList_inj.1 hcontent, (List.cons.inj hrest).2⟩

/-! ## Expressions -/

/-- The first character of an expression of this kind.  Only names and calls
share theirs. -/
def initial : Expr.Kind → Char
  | .int => 'i'
  | .float => 'f'
  | .string => 's'
  | .name => '_'
  | .array => 'a'
  | .branch => '('
  | .call => '_'

theorem printExpression_eq_cons (e : Expr) :
    ∃ rest, printExpression e = initial e.kind :: rest := by
  cases e <;> exact ⟨_, rfl⟩

theorem initial_eq_of_append_eq {e e' : Expr} {r r' : Text}
    (h : printExpression e ++ r = printExpression e' ++ r') :
    initial e.kind = initial e'.kind := by
  obtain ⟨rest, hrest⟩ := printExpression_eq_cons e
  obtain ⟨rest', hrest'⟩ := printExpression_eq_cons e'
  rw [hrest, hrest'] at h
  exact (List.cons.inj h).1

theorem printExpression_append_ne {c : Char} (h : ∀ kind, initial kind ≠ c)
    (e : Expr) (x r : Text) : printExpression e ++ x ≠ c :: r := by
  obtain ⟨rest, hrest⟩ := printExpression_eq_cons e
  rw [hrest]
  intro heq
  exact h e.kind (List.cons.inj heq).1

/-- An expression ends where neither a name goes on nor arguments follow. -/
def expressionSpelling : Spelling Expr Expr where
  text := printExpression
  Plain e := ∀ atom ∈ e.atoms, atom.Plain
  content := Expr.withoutLines
  Stops := StopsAt fun c => isNameChar c || c = '('

/-- An element of an array, where the null that ends it counts as one. -/
def elementSpelling : Spelling (Option Expr) (Option Expr) where
  text element := element.elim "NULL".toList printExpression
  Plain element := ∀ e ∈ element, expressionSpelling.Plain e
  content := Option.map Expr.withoutLines
  Stops := expressionSpelling.Stops

theorem stops_isNameChar {r : Text} (h : expressionSpelling.Stops r) :
    StopsAt isNameChar r := by
  intro c hc
  have hboth := h c hc
  simp only [Bool.or_eq_false_iff] at hboth
  exact hboth.1

theorem not_stops_parenthesis (r : Text) :
    ¬ expressionSpelling.Stops ('(' :: r) := by
  intro h
  have hparenthesis := h '(' rfl
  revert hparenthesis
  decide

theorem stops_comma (r : Text) : expressionSpelling.Stops (", ".toList ++ r) :=
  stopsAt_cons (by decide) _

theorem stops_close (r : Text) : expressionSpelling.Stops (')' :: r) :=
  stopsAt_cons (by decide) _

theorem allWithoutLines_eq_map (values : List Expr) :
    Expr.allWithoutLines values = values.map Expr.withoutLines := by
  induction values with
  | nil => rfl
  | cons value values ih => rw [Expr.allWithoutLines, ih, List.map_cons]

theorem plain_of_atomsOfAll {values : List Expr}
    (h : ∀ atom ∈ Expr.atomsOfAll values, atom.Plain) :
    ∀ value ∈ values, expressionSpelling.Plain value :=
  fun value hvalue atom hatom =>
    h atom (Expr.mem_atomsOfAll.2 ⟨value, hvalue, hatom⟩)

theorem arguments_inj {values values' : List Expr} {r r' : Text}
    (hvalues : ∀ value ∈ values, expressionSpelling.Readable value)
    (hvalues' : ∀ value ∈ values', expressionSpelling.Plain value)
    (h : commaList (printExpressions values) ++ ')' :: r =
      commaList (printExpressions values') ++ ')' :: r') :
    Expr.allWithoutLines values = Expr.allWithoutLines values' ∧ r = r' := by
  have hcloses : ∀ r, expressionSpelling.Closes ", ".toList (')' :: r) := by
    intro r
    refine ⟨stops_close r, fun x heq => ?_, fun e x => ?_⟩
    · exact absurd (List.cons.inj heq).1 (by decide)
    · exact printExpression_append_ne (by intro kind; cases kind <;> decide) e x r
  rw [printExpressions_eq_map, printExpressions_eq_map] at h
  obtain ⟨hcontents, hrest⟩ := Spelling.join_inj stops_comma (hcloses r)
    (hcloses r') hvalues hvalues' h
  rw [allWithoutLines_eq_map, allWithoutLines_eq_map]
  exact ⟨hcontents, (List.cons.inj hrest).2⟩

theorem readable_element {element : Option Expr}
    (h : ∀ e ∈ element, expressionSpelling.Readable e) :
    elementSpelling.Readable element := by
  have hnull : ∀ (e : Expr) (x r : Text),
      printExpression e ++ x ≠ "NULL".toList ++ r := fun e x r =>
    printExpression_append_ne (by intro kind; cases kind <;> decide) e x _
  intro element' r r' hplain hr hr' heq
  cases element with
  | none =>
      cases element' with
      | none => exact ⟨rfl, List.append_cancel_left heq⟩
      | some e' => exact absurd heq.symm (hnull e' r' r)
  | some e =>
      cases element' with
      | none => exact absurd heq (hnull e r r')
      | some e' =>
          obtain ⟨hcontent, hrest⟩ := h e rfl (hplain e' rfl) hr hr' heq
          exact ⟨congrArg some hcontent, hrest⟩

theorem elements_inj {values values' : List Expr} {r r' : Text}
    (hvalues : ∀ value ∈ values, expressionSpelling.Readable value)
    (hvalues' : ∀ value ∈ values', expressionSpelling.Plain value)
    (h : commaList (printExpressions values ++ ["NULL".toList]) ++ '\x7d' :: r =
      commaList (printExpressions values' ++ ["NULL".toList]) ++ '\x7d' :: r') :
    Expr.allWithoutLines values = Expr.allWithoutLines values' ∧ r = r' := by
  have hcloses : ∀ r, elementSpelling.Closes ", ".toList ('\x7d' :: r) := by
    intro r
    refine ⟨stopsAt_cons (by decide) r, fun x heq => ?_, fun element x => ?_⟩
    · exact absurd (List.cons.inj heq).1 (by decide)
    · cases element with
      | none => exact fun heq => absurd (List.cons.inj heq).1 (by decide)
      | some e =>
          exact printExpression_append_ne (by intro kind; cases kind <;> decide)
            e x r
  -- Elements and null together are one list of items.
  have htexts : ∀ values : List Expr,
      printExpressions values ++ ["NULL".toList] =
        (values.map some ++ [none]).map elementSpelling.text := by
    intro values
    rw [printExpressions_eq_map, List.map_append, List.map_map]
    rfl
  have hreadable : ∀ element ∈ values.map some ++ [none],
      elementSpelling.Readable element := by
    intro element helement
    apply readable_element
    rintro e rfl
    exact hvalues e (by simpa using helement)
  have hplain : ∀ element ∈ values'.map some ++ [none],
      elementSpelling.Plain element := by
    rintro element helement e rfl
    exact hvalues' e (by simpa using helement)
  rw [htexts, htexts] at h
  obtain ⟨hcontents, hrest⟩ := Spelling.join_inj (S := elementSpelling)
    stops_comma (hcloses r) (hcloses r') hreadable hplain h
  refine ⟨?_, (List.cons.inj hrest).2⟩
  rw [List.map_append, List.map_append, List.map_map, List.map_map] at hcontents
  have hsome := List.append_cancel_right hcontents
  rw [allWithoutLines_eq_map, allWithoutLines_eq_map]
  rw [← List.map_inj_right fun _ _ => Option.some.inj, List.map_map,
    List.map_map]
  exact hsome

theorem array_inj {values values' : List Expr} {r r' : Text}
    (hvalues : ∀ value ∈ values, expressionSpelling.Readable value)
    (hvalues' : ∀ value ∈ values', expressionSpelling.Plain value)
    (h : arrayLiteral (printExpressions values) ++ r =
      arrayLiteral (printExpressions values') ++ r') :
    Expr.allWithoutLines values = Expr.allWithoutLines values' ∧ r = r' := by
  have hbraces := application_singleton_inj h
  rw [List.append_assoc, List.append_assoc, List.append_assoc,
    List.append_assoc] at hbraces
  obtain ⟨hcontents, hrest⟩ :=
    elements_inj hvalues hvalues' (List.append_cancel_left hbraces)
  exact ⟨hcontents, (List.cons.inj hrest).2⟩

theorem conditional_append (condition truthy falsy r : Text) :
    conditional condition truthy falsy ++ r =
      '(' :: (application "evaluateToBoolean".toList [condition] ++
        (" ? ".toList ++ (truthy ++ (" : ".toList ++ (falsy ++ ')' :: r))))) := by
  simp [conditional]

theorem plain_branch_iff {condition truthy falsy : Expr} :
    expressionSpelling.Plain (.branch condition truthy falsy) ↔
      expressionSpelling.Plain condition ∧ expressionSpelling.Plain truthy ∧
        expressionSpelling.Plain falsy := by
  simp only [expressionSpelling, Expr.atoms, List.forall_mem_append, and_assoc]

theorem branch_inj {condition truthy falsy condition' truthy' falsy' : Expr}
    {r r' : Text} (hcondition : expressionSpelling.Readable condition)
    (htruthy : expressionSpelling.Readable truthy)
    (hfalsy : expressionSpelling.Readable falsy)
    (hplain : expressionSpelling.Plain (.branch condition' truthy' falsy'))
    (h : printExpression (.branch condition truthy falsy) ++ r =
      printExpression (.branch condition' truthy' falsy') ++ r') :
    (Expr.branch condition truthy falsy).withoutLines =
      (Expr.branch condition' truthy' falsy').withoutLines ∧ r = r' := by
  have hthen : ∀ x, expressionSpelling.Stops (" : ".toList ++ x) :=
    fun x => stopsAt_cons (by decide) _
  obtain ⟨hplainC, hplainT, hplainF⟩ := plain_branch_iff.1 hplain
  rw [printExpression, printExpression, conditional_append,
    conditional_append] at h
  have hrest := application_singleton_inj (List.cons.inj h).2
  obtain ⟨hc, hrest⟩ := hcondition hplainC (stops_close _) (stops_close _) hrest
  have hrest := List.append_cancel_left (List.cons.inj hrest).2
  obtain ⟨ht, hrest⟩ := htruthy hplainT (hthen _) (hthen _) hrest
  have hrest := List.append_cancel_left hrest
  obtain ⟨hf, hrest⟩ := hfalsy hplainF (stops_close _) (stops_close _) hrest
  refine ⟨?_, (List.cons.inj hrest).2⟩
  simp only [expressionSpelling] at hc ht hf
  rw [Expr.withoutLines, Expr.withoutLines, hc, ht, hf]

theorem withoutLine_eq_iff {a b : Ident} :
    a.withoutLine = b.withoutLine ↔ a.text = b.text := by
  simp [Ident.withoutLine]

theorem call_inj {callee callee' : Ident} {args args' : List Expr} {r r' : Text}
    (hcallee : (Atom.name callee.text).Plain)
    (hargs : ∀ arg ∈ args, expressionSpelling.Readable arg)
    (hplain : expressionSpelling.Plain (.call callee' args'))
    (h : printExpression (.call callee args) ++ r =
      printExpression (.call callee' args') ++ r') :
    (Expr.call callee args).withoutLines =
      (Expr.call callee' args').withoutLines ∧ r = r' := by
  obtain ⟨hcallee', hargs'⟩ := List.forall_mem_cons.1 hplain
  rw [printExpression, printExpression, application_append,
    application_append] at h
  obtain ⟨htext, hrest⟩ := mangle_append_inj hcallee hcallee'
    (stopsAt_cons (by decide) _) (stopsAt_cons (by decide) _) h
  obtain ⟨hcontents, hrest⟩ := arguments_inj hargs (plain_of_atomsOfAll hargs')
    (List.cons.inj hrest).2
  refine ⟨?_, hrest⟩
  rw [Expr.withoutLines, Expr.withoutLines, withoutLine_eq_iff.2 htext,
    hcontents]

/-- Both are written with an underscore and a word, but only a call goes on with
a parenthesis. -/
theorem name_append_ne_call {ident callee : Ident} {args : List Expr}
    {r r' : Text} (hname : (Atom.name ident.text).Plain)
    (hcallee : (Atom.name callee.text).Plain)
    (hr : expressionSpelling.Stops r) :
    printExpression (.name ident) ++ r ≠
      printExpression (.call callee args) ++ r' := by
  intro h
  rw [printExpression, printExpression, application_append] at h
  obtain ⟨-, rfl⟩ := mangle_append_inj hname hcallee (stops_isNameChar hr)
    (stopsAt_cons (by decide) _) h
  exact not_stops_parenthesis _ hr

mutual

theorem readable_expression (e : Expr) (h : expressionSpelling.Plain e) :
    expressionSpelling.Readable e := by
  intro e' r r' h' hr hr' heq
  -- Kinds are told apart by their first character, except names and calls.
  have hinitial : initial e.kind = initial e'.kind :=
    initial_eq_of_append_eq heq
  match e with
  | .int digits =>
      cases e' with
      | int digits' =>
          obtain ⟨rfl, rfl⟩ := number_inj (h _ (List.mem_singleton_self _))
            (h' _ (List.mem_singleton_self _)) heq
          exact ⟨rfl, rfl⟩
      | _ => simp [initial, Expr.kind] at hinitial
  | .float digits =>
      cases e' with
      | float digits' =>
          obtain ⟨rfl, rfl⟩ := number_inj (h _ (List.mem_singleton_self _))
            (h' _ (List.mem_singleton_self _)) heq
          exact ⟨rfl, rfl⟩
      | _ => simp [initial, Expr.kind] at hinitial
  | .string content =>
      cases e' with
      | string content' =>
          obtain ⟨rfl, rfl⟩ := string_inj (h _ (List.mem_singleton_self _))
            (h' _ (List.mem_singleton_self _)) heq
          exact ⟨rfl, rfl⟩
      | _ => simp [initial, Expr.kind] at hinitial
  | .name ident =>
      have hname := h _ (List.mem_singleton_self _)
      cases e' with
      | name ident' =>
          obtain ⟨htext, rfl⟩ := mangle_append_inj hname
            (h' _ (List.mem_singleton_self _)) (stops_isNameChar hr)
            (stops_isNameChar hr') heq
          exact ⟨congrArg Expr.name (withoutLine_eq_iff.2 htext), rfl⟩
      | call callee args =>
          have hcallee := h' _ List.mem_cons_self
          exact absurd heq (name_append_ne_call hname hcallee hr)
      | _ => simp [initial, Expr.kind] at hinitial
  | .array values =>
      cases e' with
      | array values' =>
          obtain ⟨hcontents, rfl⟩ := array_inj (readable_expressions values h)
            (plain_of_atomsOfAll h') heq
          exact ⟨congrArg Expr.array hcontents, rfl⟩
      | _ => simp [initial, Expr.kind] at hinitial
  | .branch condition truthy falsy =>
      cases e' with
      | branch condition' truthy' falsy' =>
          obtain ⟨hcondition, htruthy, hfalsy⟩ := plain_branch_iff.1 h
          exact branch_inj (readable_expression condition hcondition)
            (readable_expression truthy htruthy)
            (readable_expression falsy hfalsy) h' heq
      | _ => simp [initial, Expr.kind] at hinitial
  | .call callee args =>
      have hcallee := h _ List.mem_cons_self
      cases e' with
      | name ident =>
          have hname := h' _ (List.mem_singleton_self _)
          exact absurd heq.symm (name_append_ne_call hname hcallee hr')
      | call callee' args' =>
          have hargs : ∀ atom ∈ Expr.atomsOfAll args, atom.Plain :=
            fun atom hatom => h atom (List.mem_cons_of_mem _ hatom)
          exact call_inj hcallee (readable_expressions args hargs) h' heq
      | _ => simp [initial, Expr.kind] at hinitial

theorem readable_expressions (values : List Expr)
    (h : ∀ atom ∈ Expr.atomsOfAll values, atom.Plain) :
    ∀ value ∈ values, expressionSpelling.Readable value := by
  match values with
  | [] => simp
  | value :: values =>
      rw [Expr.atomsOfAll, List.forall_mem_append] at h
      rw [List.forall_mem_cons]
      exact ⟨readable_expression value h.1, readable_expressions values h.2⟩

end

/-! ## Bodies -/

/-- The text of a body whose lines are separated by `sep`. -/
def bodyText (sep : Text) (calls : List Call) : Text :=
  Text.join sep (statements (printExpressions (calls.map Call.toExpr)))

theorem bodyText_nil_append (sep r : Text) :
    bodyText sep [] ++ r = "return ".toList ++ ("none_value();".toList ++ r) :=
  rfl

theorem bodyText_singleton_append (sep : Text) (call : Call) (r : Text) :
    bodyText sep [call] ++ r =
      "return ".toList ++ (printExpression call.toExpr ++ ';' :: r) := by
  simp [bodyText, printExpressions, statements, Text.join]

theorem bodyText_cons_cons_append (sep : Text) (call next : Call)
    (rest : List Call) (r : Text) :
    bodyText sep (call :: next :: rest) ++ r =
      printExpression call.toExpr ++
        ';' :: (sep ++ (bodyText sep (next :: rest) ++ r)) := by
  have hjoin : ∀ (first : Text) (others : List Text), others ≠ [] →
      Text.join sep (first :: others) =
        first ++ sep ++ Text.join sep others := by
    intro first others hne
    cases others with
    | nil => exact absurd rfl hne
    | cons second others => rfl
  have hne :
      statements (printExpressions ((next :: rest).map Call.toExpr)) ≠ [] := by
    cases rest <;> simp [printExpressions, statements]
  simp only [bodyText, List.map_cons, printExpressions, statements] at hne ⊢
  rw [hjoin _ _ hne]
  simp

theorem stops_semicolon (r : Text) : expressionSpelling.Stops (';' :: r) :=
  stopsAt_cons (by decide) r

theorem withoutLines_eq_of_toExpr {call call' : Call}
    (h : call.toExpr.withoutLines = call'.toExpr.withoutLines) :
    call.withoutLines = call'.withoutLines := by
  obtain ⟨hcallee, hargs⟩ := Expr.call.inj h
  rw [Call.withoutLines, Call.withoutLines, hcallee, hargs]

/-- A body ends with its only return.  The induction is on the calls of both
bodies, and whenever one of them is at its return and the other is not, the
first character tells. -/
theorem bodyText_inj (sep : Text) {calls calls' : List Call} {r r' : Text}
    (hcalls : ∀ call ∈ calls, expressionSpelling.Readable call.toExpr)
    (hcalls' : ∀ call ∈ calls', expressionSpelling.Plain call.toExpr)
    (h : bodyText sep calls ++ r = bodyText sep calls' ++ r') :
    calls.map Call.withoutLines = calls'.map Call.withoutLines ∧ r = r' := by
  -- A call starts with an underscore, and no other part of a body does.
  have hnone : ∀ (call : Call) (x r : Text),
      printExpression call.toExpr ++ x ≠ "none_value();".toList ++ r :=
    fun call x r heq => absurd (List.cons.inj heq).1 (by decide)
  have hreturn : ∀ (call : Call) (x r : Text),
      printExpression call.toExpr ++ x ≠ "return ".toList ++ r :=
    fun call x r heq => absurd (List.cons.inj heq).1 (by decide)
  induction calls generalizing calls' with
  | nil =>
      rw [bodyText_nil_append] at h
      match calls' with
      | [] =>
          rw [bodyText_nil_append] at h
          exact ⟨rfl, List.append_cancel_left (List.append_cancel_left h)⟩
      | [call'] =>
          rw [bodyText_singleton_append] at h
          exact absurd (List.append_cancel_left h).symm (hnone _ _ _)
      | call' :: next' :: rest' =>
          rw [bodyText_cons_cons_append] at h
          exact absurd h.symm (hreturn _ _ _)
  | cons call calls ih =>
      rw [List.forall_mem_cons] at hcalls
      cases calls with
      | nil =>
          rw [bodyText_singleton_append] at h
          match calls' with
          | [] => exact absurd (List.append_cancel_left h) (hnone _ _ _)
          | [call'] =>
              rw [bodyText_singleton_append] at h
              obtain ⟨hcall, hrest⟩ := hcalls.1
                (hcalls' call' (List.mem_singleton_self _)) (stops_semicolon _)
                (stops_semicolon _) (List.append_cancel_left h)
              refine ⟨?_, (List.cons.inj hrest).2⟩
              rw [List.map_singleton, List.map_singleton,
                withoutLines_eq_of_toExpr hcall]
          | call' :: next' :: rest' =>
              rw [bodyText_cons_cons_append] at h
              exact absurd h.symm (hreturn _ _ _)
      | cons next rest =>
          rw [bodyText_cons_cons_append] at h
          match calls' with
          | [] => exact absurd h (hreturn _ _ _)
          | [call'] =>
              rw [bodyText_singleton_append] at h
              exact absurd h (hreturn _ _ _)
          | call' :: next' :: rest' =>
              rw [bodyText_cons_cons_append] at h
              rw [List.forall_mem_cons] at hcalls'
              obtain ⟨hcall, hrest⟩ := hcalls.1 hcalls'.1 (stops_semicolon _)
                (stops_semicolon _) h
              obtain ⟨hcontents, hrest⟩ := ih hcalls.2 hcalls'.2
                (List.append_cancel_left (List.cons.inj hrest).2)
              refine ⟨?_, hrest⟩
              rw [List.map_cons, List.map_cons (l := next' :: rest'),
                withoutLines_eq_of_toExpr hcall, hcontents]

/-! ## Definitions -/

/-- A parameter in the line that opens a definition. -/
def parameterSpelling : Spelling Ident Ident where
  text p := valueType ++ ' ' :: mangle p.text
  Plain p := (Atom.name p.text).Plain
  content := Ident.withoutLine
  Stops := StopsAt isNameChar

theorem readable_parameter {p : Ident} (h : parameterSpelling.Plain p) :
    parameterSpelling.Readable p := by
  intro p' r r' h' hr hr' heq
  have hwords : mangle p.text ++ r = mangle p'.text ++ r' := by
    simpa [parameterSpelling] using heq
  obtain ⟨htext, hrest⟩ := mangle_append_inj h h' hr hr' hwords
  exact ⟨withoutLine_eq_iff.2 htext, hrest⟩

theorem parameters_inj {params params' : List Ident} {r r' : Text}
    (hparams : ∀ p ∈ params, parameterSpelling.Plain p)
    (hparams' : ∀ p ∈ params', parameterSpelling.Plain p)
    (h : commaList (params.map parameterSpelling.text) ++ ')' :: r =
      commaList (params'.map parameterSpelling.text) ++ ')' :: r') :
    params.map Ident.withoutLine = params'.map Ident.withoutLine ∧ r = r' := by
  have hcloses : ∀ r, parameterSpelling.Closes ", ".toList (')' :: r) := by
    intro r
    refine ⟨stopsAt_cons (by decide) r, fun x heq => ?_, fun p x heq => ?_⟩
    · exact absurd (List.cons.inj heq).1 (by decide)
    · exact absurd (List.cons.inj heq).1 (by decide)
  have hcomma : ∀ x, parameterSpelling.Stops (", ".toList ++ x) :=
    fun x => stopsAt_cons (by decide) _
  obtain ⟨hcontents, hrest⟩ := Spelling.join_inj hcomma (hcloses r)
    (hcloses r') (fun p hp => readable_parameter (hparams p hp)) hparams' h
  exact ⟨hcontents, (List.cons.inj hrest).2⟩

/-- A definition needs no particular text behind it: its brace ends it. -/
def definitionSpelling (indent : Nat) : Spelling Definition Definition where
  text := printDefinition indent
  Plain d := ∀ atom ∈ d.atoms, atom.Plain
  content := Definition.withoutLines
  Stops _ := True

theorem printDefinition_append (indent : Nat) {d : Definition}
    (h : (definitionSpelling indent).Plain d) (r : Text) :
    printDefinition indent d ++ r =
      "Value* ".toList ++ (mangle d.name.text ++
        '(' :: (commaList (d.params.map parameterSpelling.text) ++
          ')' :: ("\n\x7b\n".toList ++ (spaces indent ++
            (bodyText ('\n' :: spaces indent) d.body ++
              ("\n\x7d".toList ++ r)))))) := by
  rw [printDefinition_eq_of_lacks_tab indent fun atom hatom =>
    (h atom hatom).lacks_tab]
  simp only [signatureLine, List.append_assoc, List.cons_append,
    application_append]
  rfl

theorem readable_definition (indent : Nat) {d : Definition}
    (h : (definitionSpelling indent).Plain d) :
    (definitionSpelling indent).Readable d := by
  have hparts : ∀ {d : Definition}, (definitionSpelling indent).Plain d →
      (Atom.name d.name.text).Plain ∧
        (∀ p ∈ d.params, parameterSpelling.Plain p) ∧
        ∀ atom ∈ Expr.atomsOfAll (d.body.map Call.toExpr), atom.Plain := by
    intro d h
    simp only [definitionSpelling, Definition.atoms, List.cons_append,
      List.forall_mem_cons, List.forall_mem_append, List.forall_mem_map] at h
    exact h
  intro d' r r' h' _ _ heq
  obtain ⟨hname, hparams, hbody⟩ := hparts h
  obtain ⟨hname', hparams', hbody'⟩ := hparts h'
  simp only [definitionSpelling] at heq
  rw [printDefinition_append indent h, printDefinition_append indent h'] at heq
  obtain ⟨htext, hrest⟩ := mangle_append_inj hname hname'
    (stopsAt_cons (by decide) _) (stopsAt_cons (by decide) _)
    (List.append_cancel_left heq)
  obtain ⟨hps, hrest⟩ :=
    parameters_inj hparams hparams' (List.cons.inj hrest).2
  have hrest := List.append_cancel_left (List.append_cancel_left hrest)
  obtain ⟨hcalls, hrest⟩ := bodyText_inj _
    (fun call hcall => readable_expressions _ hbody _ (List.mem_map_of_mem hcall))
    (fun call hcall => plain_of_atomsOfAll hbody' _ (List.mem_map_of_mem hcall))
    hrest
  refine ⟨?_, List.append_cancel_left hrest⟩
  simp only [definitionSpelling, Definition.withoutLines,
    withoutLine_eq_iff.2 htext, hps, hcalls]

/-! ## Programs -/

theorem printDefinition_append_ne_nil (indent : Nat) (d : Definition)
    (x : Text) : printDefinition indent d ++ x ≠ [] := by
  have hcons : ∃ rest, printDefinition indent d = 'V' :: rest := ⟨_, rfl⟩
  obtain ⟨rest, hrest⟩ := hcons
  rw [hrest]
  exact List.cons_ne_nil _ _

/--
Code generation is unambiguous.  Let two programs be accepted, and let their
names and numbers be made of the usual characters and their strings have no NUL
in front of an octal digit.  If their definitions have the same text, then they
are the same program up to the lines of identifiers.
-/
theorem functions_definitions_inj {indent : Nat} {p q : Program}
    {code code' : Functions} (hp : functions indent p = .ok code)
    (hq : functions indent q = .ok code')
    (hplain : ∀ atom ∈ p.atoms, atom.Plain)
    (hplain' : ∀ atom ∈ q.atoms, atom.Plain)
    (h : code.definitions = code'.definitions) :
    p.withoutLines = q.withoutLines := by
  have hparts : ∀ {p : Program}, (∀ atom ∈ p.atoms, atom.Plain) →
      ∀ d ∈ p, (definitionSpelling indent).Plain d :=
    fun hplain d hd atom hatom =>
      hplain atom (Program.mem_atoms hd hatom)
  have hcloses : (definitionSpelling indent).Closes "\n\n".toList [] :=
    ⟨trivial, fun x => List.cons_ne_nil _ _,
      printDefinition_append_ne_nil indent⟩
  have hjoin : Text.join "\n\n".toList (p.map (printDefinition indent)) ++ [] =
      Text.join "\n\n".toList (q.map (printDefinition indent)) ++ [] := by
    rw [← (functions_eq_ok_iff.1 hp).2.definitions_eq,
      ← (functions_eq_ok_iff.1 hq).2.definitions_eq, h]
  exact (Spelling.join_inj (fun _ => trivial) hcloses hcloses
    (fun d hd => readable_definition indent (hparts hplain d hd))
    (hparts hplain') hjoin).1

/-- Strings that look like code, nested branches, an empty name and an empty
number, on one set of lines and on another. -/
theorem functions_definitions_inj_intricate :
    let program (line : UInt32) : Program :=
      [{ name := ⟨"f", line⟩
         params := [⟨"x", line⟩, ⟨"", line⟩]
         body :=
          [{ callee := ⟨"print", line⟩
             args := [.string "\"), NULL\x7d)\n\t\x008", .string ""] },
           { callee := ⟨"f", line + 1⟩
             args :=
              [.branch (.name ⟨"x", line⟩) (.array [.array [], .int ""])
                (.branch (.float "-1.5e+3") (.name ⟨"", line⟩)
                  (.call ⟨"null", line⟩ [])),
               .array [.name ⟨"x", line⟩, .call ⟨"null", line⟩ [.int "1"]]] }] },
       { name := ⟨"g", line⟩ }]
    program 1 ≠ program 2 ∧
      (program 1).withoutLines = (program 2).withoutLines := by
  intro program
  have hcode : functions 4 (program 1) = .ok _ := rfl
  have hcode' : functions 4 (program 2) = .ok _ := rfl
  exact ⟨by decide,
    functions_definitions_inj hcode hcode' (by decide) (by decide) rfl⟩

end Code

end Lowering
