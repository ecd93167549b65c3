import Lowering.Proofs.Code.GeneratedLines
import Lowering.Proofs.Code.UniqueReading

/-!
# Generated code as tokens

Generated code consists of three sorts of tokens: the atoms of the program,
words that lowering has by itself, and marks.  A mark is punctuation or layout,
and has no character that could belong to a word.  Wherever two tokens meet, one
of them is a mark.  So an identifier of the program is always a whole word of
the code: the characters around it cannot be read as a part of it.

Numbers are written as they are, whatever they contain, so the code cannot be
cut into tokens by looking at its characters.  It is cut along the way it was
written instead: every form of the code that is put together from others has
marks in between (`Tokenised.append_mark`).

## Main results

* `tokenised_definitions`, `tokenised_declarations` — the tokens of the two
  parts of generated code, and the atoms among them.
* `Apart.delimited` — names are whole words, also when tabs are expanded.
-/

namespace Lowering.Code

/-! ## Tokens -/

/-- The names of the runtime that occur in generated code. -/
def runtimeNames : List String :=
  ["Value", "NULL", "int_value", "float_value", "string_value", "array_value",
    "evaluateToBoolean", "none_value"]

/-- Punctuation and layout.  Tabs alone are none, since they can be expanded to
nothing. -/
def isMark (text : Text) : Bool :=
  text.any (· ≠ '\t') && text.all fun c => !isNameChar c

inductive Token where
  /-- Something that the program brings. -/
  | source (atom : Atom)
  /-- A word of the generator: a name of the runtime, or `return`. -/
  | word (text : String) (h : text ∈ "return" :: runtimeNames)
  | mark (text : Text) (h : isMark text = true)

namespace Token

def text : Token → Text
  | .source (.name name) => mangle name
  | .source (.number digits) => digits.toList
  | .source (.string content) => StringLiteral.quote content.toList
  | .word text _ => text.toList
  | .mark text _ => text

def atom? : Token → Option Atom
  | .source atom => some atom
  | _ => none

def IsMark : Token → Prop
  | .mark _ _ => True
  | _ => False

theorem IsMark.isMark_text {token : Token} (h : token.IsMark) :
    isMark token.text = true := by
  cases token with
  | mark text htext => exact htext
  | _ => cases h

end Token

/-- Wherever two tokens meet, one of them is a mark. -/
def Apart (tokens : List Token) : Prop :=
  tokens.IsChain fun token next => token.IsMark ∨ next.IsMark

theorem apart_append_mark {front back : List Token} (hfront : Apart front)
    (hback : Apart back) {text : Text} (h : isMark text = true) :
    Apart (front ++ .mark text h :: back) := by
  refine List.isChain_append.2 ⟨hfront, List.isChain_cons.2 ⟨?_, hback⟩, ?_⟩
  · intro next _
    exact .inl trivial
  · intro token _ next hnext
    obtain rfl : .mark text h = next := Option.some.inj hnext
    exact .inr trivial

/-- The text is made of tokens, with these atoms in this order. -/
def Tokenised (atoms : List Atom) (text : Text) : Prop :=
  ∃ tokens : List Token, tokens.flatMap Token.text = text ∧
    tokens.filterMap Token.atom? = atoms ∧ Apart tokens

section Tokenised

variable {atoms more : List Atom} {text other : Text}

theorem tokenised_nil : Tokenised [] [] :=
  ⟨[], rfl, rfl, List.isChain_nil⟩

theorem tokenised_singleton (token : Token) :
    Tokenised token.atom?.toList token.text := by
  refine ⟨[token], by simp, ?_, List.isChain_singleton _⟩
  cases token <;> rfl

theorem tokenised_word {word : String} (h : word ∈ "return" :: runtimeNames) :
    Tokenised [] word.toList :=
  tokenised_singleton (.word word h)

theorem tokenised_name (name : String) : Tokenised [.name name] (mangle name) :=
  tokenised_singleton (.source (.name name))

/-- Texts with a mark between them. -/
theorem Tokenised.append_mark (h : Tokenised atoms text) (mark : Text)
    (hmark : isMark mark = true) (hother : Tokenised more other) :
    Tokenised (atoms ++ more) (text ++ (mark ++ other)) := by
  obtain ⟨front, rfl, rfl, hfront⟩ := h
  obtain ⟨back, rfl, rfl, hback⟩ := hother
  refine ⟨front ++ .mark mark hmark :: back, ?_, ?_,
    apart_append_mark hfront hback hmark⟩
  · rw [List.flatMap_append, List.flatMap_cons]
    rfl
  · rw [List.filterMap_append, List.filterMap_cons_none rfl]

theorem Tokenised.mark_append (h : Tokenised atoms text) (mark : Text)
    (hmark : isMark mark = true) : Tokenised atoms (mark ++ text) :=
  tokenised_nil.append_mark mark hmark h

theorem Tokenised.append_last (h : Tokenised atoms text) (mark : Text)
    (hmark : isMark mark = true) : Tokenised atoms (text ++ mark) := by
  have hlast := h.append_mark mark hmark tokenised_nil
  rwa [List.append_nil, List.append_nil] at hlast

theorem join_cons_of_ne_nil (sep piece : Text) {rest : List Text}
    (h : rest ≠ []) :
    Text.join sep (piece :: rest) = piece ++ (sep ++ Text.join sep rest) := by
  obtain ⟨next, others, rfl⟩ := List.exists_cons_of_ne_nil h
  rw [Text.join, List.append_assoc]

/-- Texts with the same mark between neighbours. -/
theorem tokenised_join (mark : Text) (hmark : isMark mark = true) {α : Type}
    {items : List α} {atomsOf : α → List Atom} {textOf : α → Text}
    (h : ∀ item ∈ items, Tokenised (atomsOf item) (textOf item)) :
    Tokenised (items.flatMap atomsOf) (Text.join mark (items.map textOf)) := by
  induction items with
  | nil => exact tokenised_nil
  | cons item items ih =>
      rw [List.forall_mem_cons] at h
      cases items with
      | nil => simpa [Text.join] using h.1
      | cons next items =>
          rw [List.map_cons, List.flatMap_cons,
            join_cons_of_ne_nil _ _ (by simp)]
          exact h.1.append_mark mark hmark (ih h.2)

theorem Tokenised.application {function : Text} (h : Tokenised atoms function)
    {α : Type} {items : List α} {atomsOf : α → List Atom} {textOf : α → Text}
    (hitems : ∀ item ∈ items, Tokenised (atomsOf item) (textOf item)) :
    Tokenised (atoms ++ items.flatMap atomsOf)
      (application function (items.map textOf)) := by
  have hargs := tokenised_join ", ".toList (by decide) hitems
  have hcall := h.append_mark ['('] (by decide)
    (hargs.append_last [')'] (by decide))
  simpa only [Code.application, commaList, List.append_assoc, List.cons_append,
    List.nil_append] using hcall

/-- A function of the runtime around a single argument. -/
theorem Tokenised.runtime_application (h : Tokenised atoms text) (word : String)
    (hword : word ∈ "return" :: runtimeNames) :
    Tokenised atoms (Code.application word.toList [text]) := by
  have hcall := (tokenised_word hword).append_mark ['('] (by decide)
    (h.append_last [')'] (by decide))
  simpa only [Code.application, commaList, Text.join, List.append_assoc,
    List.cons_append, List.nil_append] using hcall

end Tokenised

/-! ## Expressions -/

theorem atomsOfAll_eq_flatMap (values : List Expr) :
    Expr.atomsOfAll values = values.flatMap Expr.atoms := by
  induction values with
  | nil => rfl
  | cons value values ih => rw [Expr.atomsOfAll, ih, List.flatMap_cons]

/-- The elements of an array and the null behind them. -/
theorem tokenised_elements {values : List Expr}
    (h : ∀ value ∈ values, Tokenised value.atoms (printExpression value)) :
    Tokenised (values.flatMap Expr.atoms)
      (commaList (values.map printExpression ++ ["NULL".toList])) := by
  have hnull : Tokenised [] "NULL".toList := tokenised_word (by decide)
  -- Because of the null behind them, every element has a mark behind it.
  induction values with
  | nil => exact hnull
  | cons value values ih =>
      rw [List.forall_mem_cons] at h
      rw [List.map_cons, List.cons_append, List.flatMap_cons, commaList,
        join_cons_of_ne_nil _ _ (by simp)]
      exact h.1.append_mark ", ".toList (by decide) (ih h.2)

theorem tokenised_arrayLiteral {values : List Expr}
    (h : ∀ value ∈ values, Tokenised value.atoms (printExpression value)) :
    Tokenised (values.flatMap Expr.atoms)
      (arrayLiteral (values.map printExpression)) := by
  have htype : Tokenised [] "Value".toList := tokenised_word (by decide)
  have hvalues := htype.append_mark "* []) \x7b".toList (by decide)
    ((tokenised_elements h).append_last "\x7d".toList (by decide))
  have hliteral := hvalues.mark_append ['('] (by decide)
  have htext : "(Value* []) \x7b".toList =
      ['('] ++ ("Value".toList ++ "* []) \x7b".toList) := rfl
  rw [arrayLiteral, htext]
  apply Tokenised.runtime_application _ "array_value" (by decide)
  simpa only [List.append_assoc, List.nil_append] using hliteral

theorem tokenised_conditional {condition truthy falsy : Text}
    {inCondition inTruthy inFalsy : List Atom}
    (hcondition : Tokenised inCondition condition)
    (htruthy : Tokenised inTruthy truthy) (hfalsy : Tokenised inFalsy falsy) :
    Tokenised (inCondition ++ inTruthy ++ inFalsy)
      (conditional condition truthy falsy) := by
  have htest := hcondition.runtime_application "evaluateToBoolean" (by decide)
  have hchoice := htruthy.append_mark " : ".toList (by decide)
    (hfalsy.append_last [')'] (by decide))
  have hall := (htest.append_mark " ? ".toList (by decide) hchoice).mark_append
    ['('] (by decide)
  simpa only [conditional, List.append_assoc, List.cons_append, List.nil_append]
    using hall

mutual

theorem tokenised_printExpression (e : Expr) :
    Tokenised e.atoms (printExpression e) := by
  match e with
  | .int digits =>
      exact (tokenised_singleton (.source (.number digits))).runtime_application
        "int_value" (by decide)
  | .float digits =>
      exact (tokenised_singleton (.source (.number digits))).runtime_application
        "float_value" (by decide)
  | .string content =>
      exact (tokenised_singleton (.source (.string content))).runtime_application
        "string_value" (by decide)
  | .name ident => exact tokenised_name ident.text
  | .array values =>
      rw [Expr.atoms, atomsOfAll_eq_flatMap, printExpression,
        printExpressions_eq_map]
      exact tokenised_arrayLiteral (tokenised_of_mem values)
  | .branch condition truthy falsy =>
      exact tokenised_conditional (tokenised_printExpression condition)
        (tokenised_printExpression truthy) (tokenised_printExpression falsy)
  | .call callee args =>
      rw [Expr.atoms, atomsOfAll_eq_flatMap, printExpression,
        printExpressions_eq_map]
      exact (tokenised_name callee.text).application (tokenised_of_mem args)

theorem tokenised_of_mem (values : List Expr) :
    ∀ value ∈ values, Tokenised value.atoms (printExpression value) := by
  match values with
  | [] => simp
  | value :: values =>
      rw [List.forall_mem_cons]
      exact ⟨tokenised_printExpression value, tokenised_of_mem values⟩

end

/-! ## Definitions and declarations -/

theorem tokenised_statements (calls : List Expr) :
    Tokenised (calls.flatMap Expr.atoms)
      (Text.join "\n\t".toList (statements (calls.map printExpression))) := by
  have hreturn : Tokenised [] "return".toList := tokenised_word (by decide)
  induction calls with
  | nil =>
      have hnone : Tokenised [] "none_value".toList :=
        tokenised_word (by decide)
      exact hreturn.append_mark [' '] (by decide)
        (hnone.append_last "();".toList (by decide))
  | cons call calls ih =>
      have hcall := tokenised_printExpression call
      cases calls with
      | nil =>
          have hlast := hreturn.append_mark [' '] (by decide)
            (hcall.append_last [';'] (by decide))
          have htext : "return ".toList = "return".toList ++ [' '] := rfl
          rw [List.map_singleton, statements, Text.join, htext,
            List.flatMap_singleton]
          simpa only [List.append_assoc, List.nil_append] using hlast
      | cons next calls =>
          have hmore := hcall.append_mark ([';'] ++ "\n\t".toList) (by decide) ih
          rw [List.map_cons, List.map_cons, statements, ← List.map_cons,
            join_cons_of_ne_nil _ _ (statements_ne_nil _), List.flatMap_cons]
          simpa only [List.append_assoc] using hmore

/-- A name behind its type. -/
theorem tokenised_typed (name : String) :
    Tokenised [.name name] (valueType ++ ' ' :: mangle name) := by
  have htype : Tokenised [] "Value".toList := tokenised_word (by decide)
  exact htype.append_mark "* ".toList (by decide) (tokenised_name name)

theorem tokenised_signatureLine (d : Definition) :
    Tokenised (.name d.name.text :: d.params.map fun p => .name p.text)
      (signatureLine d) := by
  have hparams : ∀ p ∈ d.params, Tokenised [.name p.text]
      (valueType ++ ' ' :: mangle p.text) := fun p _ => tokenised_typed p.text
  have hheader := (tokenised_typed d.name.text).application hparams
  rw [← List.map_eq_flatMap] at hheader
  simpa only [signatureLine, application, List.append_assoc, List.cons_append,
    List.nil_append] using hheader

theorem tokenised_functionText (d : Definition) :
    Tokenised d.atoms (functionText d (printBody d.body)) := by
  have hbody := tokenised_statements (d.body.map Call.toExpr)
  have hall := (tokenised_signatureLine d).append_mark "\n\x7b\n\t".toList
    (by decide) (hbody.append_last "\n\x7d".toList (by decide))
  rw [functionText, printBody, Definition.atoms, printExpressions_eq_map,
    atomsOfAll_eq_flatMap]
  simpa only [List.append_assoc] using hall

theorem tokenised_parameterTypes (count : Nat) :
    Tokenised [] (parameterTypes count) := by
  have htype : Tokenised [] valueType := by
    have hvalue : Tokenised [] "Value".toList := tokenised_word (by decide)
    exact hvalue.append_last ['*'] (by decide)
  have htypes : ∀ text ∈ List.replicate count valueType,
      Tokenised [] (id text) := by
    intro text htext
    rw [List.eq_of_mem_replicate htext]
    exact htype
  have hnone : (List.replicate count valueType).flatMap
      (fun _ => ([] : List Atom)) = [] :=
    List.flatMap_eq_nil_iff.2 fun _ _ => rfl
  have hjoin := tokenised_join ", ".toList (by decide) htypes
  rw [hnone, List.map_id] at hjoin
  exact hjoin

theorem tokenised_declaration (d : Definition) :
    Tokenised [.name d.name.text] (declaration d.signature) := by
  have hall := (tokenised_typed d.name.text).append_mark ['('] (by decide)
    ((tokenised_parameterTypes d.arity).append_last ");".toList (by decide))
  have hclose : ");".toList = [')', ';'] := rfl
  rw [hclose] at hall
  simpa only [declaration, Definition.signature, application, commaList,
    Text.join, List.append_assoc, List.cons_append, List.nil_append,
    List.append_nil] using hall

/-! ## Whole programs -/

theorem tokenised_declarations (program : Program) :
    Tokenised (program.map fun d => .name d.name.text)
      (Text.join ['\n'] (program.map fun d => declaration d.signature)) := by
  rw [List.map_eq_flatMap]
  exact tokenised_join ['\n'] (by decide) fun d _ => tokenised_declaration d

theorem tokenised_definitions (program : Program) :
    Tokenised program.atoms
      (Text.join "\n\n".toList
        (program.map fun d => functionText d (printBody d.body))) :=
  tokenised_join "\n\n".toList (by decide) fun d _ => tokenised_functionText d

/-- Tabs could as well be expanded once, when all definitions are written. -/
theorem printDefinitions_eq_expandTabs (indent : Nat) (program : Program) :
    printDefinitions indent program =
      expandTabs indent (Text.join "\n\n".toList
        (program.map fun d => functionText d (printBody d.body))) := by
  have hblank : expandTabs indent "\n\n".toList = "\n\n".toList :=
    expandTabs_eq_self indent (by decide)
  rw [expandTabs_join, hblank, List.map_map]
  rfl

/-! ## Whole words -/

open Text (StopsAt)

/-- No name goes on to the left or to the right of where it is written. -/
def Delimited (render : Token → Text) (tokens : List Token) : Prop :=
  ∀ front name back, tokens = front ++ .source (.name name) :: back →
    StopsAt isNameChar (front.flatMap render).reverse ∧
      StopsAt isNameChar (back.flatMap render)

theorem isMark_iff {text : Text} :
    isMark text = true ↔
      (∃ c ∈ text, c ≠ '\t') ∧ ∀ c ∈ text, isNameChar c = false := by
  simp [isMark]

theorem isMark_reverse (text : Text) : isMark text.reverse = isMark text := by
  rw [isMark, List.any_reverse, List.all_reverse, isMark]

/-- A mark stays one when its tabs are expanded, even to nothing. -/
theorem isMark_expandTabs {text : Text} (h : isMark text = true) (width : Nat) :
    isMark (expandTabs width text) = true := by
  obtain ⟨⟨c, hc, htab⟩, hchars⟩ := isMark_iff.1 h
  refine isMark_iff.2 ⟨⟨c, ?_, htab⟩, ?_⟩
  · exact List.mem_flatMap.2 ⟨c, hc, by simp [htab]⟩
  · intro d hd
    obtain ⟨source, hsource, hd⟩ := List.mem_flatMap.1 hd
    split at hd
    · rw [List.eq_of_mem_replicate hd]
      decide
    · rw [List.mem_singleton.1 hd]
      exact hchars source hsource

/-- A word ends at a mark. -/
theorem stopsAt_mark_append {mark : Text} (h : isMark mark = true)
    (rest : Text) : StopsAt isNameChar (mark ++ rest) := by
  obtain ⟨⟨c, hc, -⟩, hchars⟩ := isMark_iff.1 h
  obtain ⟨first, more, rfl⟩ := List.exists_cons_of_ne_nil (List.ne_nil_of_mem hc)
  exact Text.stopsAt_cons (hchars first List.mem_cons_self) _

theorem Apart.delimited {tokens : List Token} (h : Apart tokens)
    {render : Token → Text}
    (hrender : ∀ token : Token, token.IsMark → isMark (render token) = true) :
    Delimited render tokens := by
  rintro front name back rfl
  obtain ⟨-, hback, hmeet⟩ := List.isChain_append.1 h
  -- A name is no mark, so its neighbours are.
  constructor
  · rcases List.eq_nil_or_concat front with rfl | ⟨others, last, rfl⟩
    · intro c hc
      cases hc
    · have hlast : last.IsMark :=
        (hmeet last (by simp) _ rfl).resolve_right id
      rw [List.concat_eq_append, List.flatMap_append, List.flatMap_singleton,
        List.reverse_append]
      apply stopsAt_mark_append
      rw [isMark_reverse]
      exact hrender last hlast
  · cases back with
    | nil =>
        intro c hc
        cases hc
    | cons next others =>
        have hnext : next.IsMark :=
          ((List.isChain_cons.1 hback).1 next rfl).resolve_left id
        rw [List.flatMap_cons]
        exact stopsAt_mark_append (hrender next hnext) _

end Lowering.Code
