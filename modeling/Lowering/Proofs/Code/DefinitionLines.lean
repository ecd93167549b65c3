import Lowering.Proofs.Code.GeneratedLines
import Lowering.Proofs.Code.Scope

/-!
# The lines of a definition

Statements are separated by a newline and a tab, and the tabs are expanded over
the finished text, which knows nothing of literals.  This works because escaping
leaves no newline and no tab in a literal: as long as names and numbers have
none either, the only tabs are those in front of statements, and the only
newlines are those between lines.  So the width of the indentation is visible in
front of statements and nowhere else.

## Main results

* `getElem?_statements` — each call has one statement, and the last is returned.
* `split_printDefinition_of_lacks` — the lines of a definition, indented.
* `definition_lines_of_lacks` — the same for what lowering gives, at any width.
-/

namespace Lowering

theorem Definition.mem_calls_of_mem_body {d : Definition} {c : Call}
    (h : c ∈ d.body) : c ∈ d.calls := by
  unfold Definition.calls
  generalize d.body = body at h
  induction body with
  | nil => cases h
  | cons first rest ih =>
      rw [List.map_cons, Expr.callsOfAll, List.mem_append]
      rcases List.mem_cons.1 h with rfl | h
      · exact .inl List.mem_cons_self
      · exact .inr (ih h)

namespace Code

/-! ## Statements -/

theorem length_statements (texts : List Text) :
    (statements texts).length = max 1 texts.length := by
  fun_induction statements texts with
  | case1 => rfl
  | case2 last => rfl
  | case3 first next rest ih =>
      simp only [List.length_cons] at ih ⊢
      omega

theorem getElem?_statements {texts : List Text} {i : Nat} {text : Text}
    (h : texts[i]? = some text) :
    (statements texts)[i]? =
      some ((if i + 1 = texts.length then "return ".toList else []) ++ text ++
        [';']) := by
  fun_induction statements texts generalizing i with
  | case1 => simp at h
  | case2 last =>
      cases i with
      | zero =>
          cases h
          rfl
      | succ i => simp at h
  | case3 first next rest ih =>
      cases i with
      | zero =>
          cases h
          simp
      | succ i =>
          have hnext : (next :: rest)[i]? = some text := h
          rw [List.getElem?_cons_succ, ih hnext]
          simp only [List.length_cons, Nat.add_right_cancel_iff]

/-! ## Indentation -/

theorem tab_not_mem_expandTabs (width : Nat) (text : Text) :
    '\t' ∉ expandTabs width text := by
  simp only [expandTabs, List.mem_flatMap, not_exists, not_and]
  intro c _ hmem
  split at hmem
  · exact absurd (List.eq_of_mem_replicate hmem) (by decide)
  · rename_i hc
    exact hc (List.mem_singleton.1 hmem).symm

theorem expandTabs_tab_cons (width : Nat) {text : Text} (h : '\t' ∉ text) :
    expandTabs width ('\t' :: text) = spaces width ++ text := by
  rw [expandTabs, List.flatMap_cons, if_pos rfl, ← expandTabs,
    expandTabs_eq_self width h, spaces]

theorem split_printDefinition_of_lacks (indent : Nat) {d : Definition}
    (htab : ∀ atom ∈ d.atoms, atom.Lacks '\t')
    (hnewline : ∀ atom ∈ d.atoms, atom.Lacks '\n') :
    Text.split '\n' (printDefinition indent d) =
      signatureLine d :: ['\x7b'] ::
        ((statements (printExpressions (d.body.map Call.toExpr))).map
          (spaces indent ++ ·) ++ [['\x7d']]) := by
  have hstatements := not_mem_of_mem_bodyStatements (by decide) htab
  have hlines :
      (statements (printExpressions (d.body.map Call.toExpr))).map
          (fun statement => expandTabs indent ('\t' :: statement)) =
        (statements (printExpressions (d.body.map Call.toExpr))).map
          (spaces indent ++ ·) :=
    List.map_congr_left fun statement hmem =>
      expandTabs_tab_cons indent (hstatements statement hmem)
  have hopen : expandTabs indent ['\x7b'] = ['\x7b'] :=
    expandTabs_eq_self indent (by decide)
  have hclose : expandTabs indent ['\x7d'] = ['\x7d'] :=
    expandTabs_eq_self indent (by decide)
  rw [split_printDefinition indent hnewline, definitionLines, List.map_cons,
    List.map_cons, List.map_append, List.map_map, List.map_singleton,
    Function.comp_def, hlines, hopen, hclose,
    expandTabs_eq_self indent (not_mem_signatureLine (by decide) htab)]

/-! ## Lowered definitions -/

theorem value_mangle (name : String) :
    "Value* _".toList ++ name.toList = valueType ++ ' ' :: mangle name := by
  have hvalue : "Value* _".toList = valueType ++ [' ', '_'] := rfl
  rw [hvalue, List.append_assoc]
  rfl

/-- A header, with whatever stands for its parameters. -/
theorem value_application (name : String) (params : List Text) :
    valueType ++ ' ' :: application (mangle name) params =
      "Value* _".toList ++ name.toList ++ "(".toList ++
        Text.join ", ".toList params ++ ")".toList := by
  have hopen : "(".toList = ['('] := rfl
  have hclose : ")".toList = [')'] := rfl
  simp only [value_mangle, application, commaList, hopen, hclose,
    List.append_assoc, List.cons_append, List.nil_append]

theorem signatureLine_eq (d : Definition) :
    signatureLine d =
      "Value* _".toList ++ d.name.text.toList ++ "(".toList ++
        Text.join ", ".toList
          (d.params.map fun p => "Value* _".toList ++ p.text.toList) ++
        ")".toList := by
  rw [signatureLine, value_application]
  simp only [value_mangle]

/--
A definition whose names and numbers have no tab and no newline is laid out by
lines, whatever its strings hold.  Between the header with the opening brace and
the closing brace there is one line for each call, in order: the indentation,
the text that the call is lowered to, and a semicolon.  The last call, and no
other, is returned.  A body without calls has a single statement.

The statements do not depend on the indentation, so another width gives the same
lines with other spaces in front of the statements.  There is never a tab.
-/
theorem definition_lines_of_lacks {table : FunctionTable} {indent : Nat}
    {d : Definition} {text : Text}
    (htab : ∀ atom ∈ d.atoms, atom.Lacks '\t')
    (hnewline : ∀ atom ∈ d.atoms, atom.Lacks '\n')
    (h : definition table indent d = .ok text) :
    ∃ bodyLines : List Text,
      bodyLines.length = max 1 d.body.length ∧
      (d.body = [] → bodyLines = ["return none_value();".toList]) ∧
      (∀ i c, d.body[i]? = some c →
        ∃ code, call table c = .ok code ∧
          bodyLines[i]? =
            some ((if i + 1 = d.body.length then "return ".toList else []) ++
              code ++ [';'])) ∧
      let lines := fun width : Nat =>
        ("Value* _".toList ++ d.name.text.toList ++ "(".toList ++
            Text.join ", ".toList
              (d.params.map fun p => "Value* _".toList ++ p.text.toList) ++
            ")".toList) ::
          ['\x7b'] ::
          (bodyLines.map (List.replicate width ' ' ++ ·) ++ [['\x7d']])
      Text.split '\n' text = lines indent ∧
      (Text.split '\n' text).length = max 1 d.body.length + 3 ∧
      '\t' ∉ text ∧
      ∀ width, ∃ other, definition table width d = .ok other ∧
        Text.split '\n' other = lines width := by
  obtain ⟨hbody, rfl⟩ := definition_eq_ok_iff.1 h
  have hlines := fun width =>
    split_printDefinition_of_lacks width htab hnewline
  have hlength := length_statements
    (printExpressions (d.body.map Call.toExpr))
  rw [length_printExpressions, List.length_map] at hlength
  refine ⟨statements (printExpressions (d.body.map Call.toExpr)), hlength, ?_, ?_,
    ?_⟩
  · intro hnil
    rw [hnil]
    rfl
  · intro i c hc
    have hcall := call_eq_ok_of_mem_calls hbody
      (Definition.mem_calls_of_mem_body (List.mem_of_getElem? hc))
    refine ⟨printExpression c.toExpr, hcall, ?_⟩
    have hcode : (printExpressions (d.body.map Call.toExpr))[i]? =
        some (printExpression c.toExpr) := by
      simp [printExpressions_eq_map, hc]
    rw [getElem?_statements hcode, length_printExpressions, List.length_map]
  · intro lines
    have hsplit : ∀ width,
        Text.split '\n' (printDefinition width d) = lines width := by
      intro width
      rw [hlines, signatureLine_eq]
      rfl
    refine ⟨hsplit indent, ?_, tab_not_mem_expandTabs indent _, ?_⟩
    · rw [hlines, List.length_cons, List.length_cons, List.length_append,
        List.length_map, hlength, List.length_singleton]
    · intro width
      exact ⟨printDefinition width d, definition_eq_ok_iff.2 ⟨hbody, rfl⟩,
        hsplit width⟩

/-- Strings with tabs and newlines, one of them inside an array, in a definition
without indentation. -/
theorem definition_lines_of_lacks_strings :
    let d : Definition :=
      { name := ⟨"f", 1⟩
        params := [⟨"x", 1⟩]
        body :=
          [{ callee := ⟨"print", 2⟩, args := [.string "\t\n\n\t"] },
            { callee := ⟨"print", 3⟩, args := [.array [.string "\n\x7d"]] }] }
    let table := FunctionTable.ofProgram [d]
    ∃ text other, definition table 0 d = .ok text ∧
      definition table 3 d = .ok other ∧
      (Text.split '\n' text).length = 5 ∧ '\t' ∉ text ∧
      (Text.split '\n' other)[2]? =
        some ("   _print(string_value(\"\\t\\n\\n\\t\"));".toList) := by
  intro d table
  have hatoms : d.atoms =
      [.name "f", .name "x", .name "print", .string "\t\n\n\t", .name "print",
        .string "\n\x7d"] := rfl
  obtain ⟨text, htext⟩ : ∃ text, definition table 0 d = .ok text := ⟨_, rfl⟩
  obtain ⟨bodyLines, -, -, hcalls, -, hlength, htab, hwidths⟩ :=
    definition_lines_of_lacks (by simp [hatoms, Atom.Lacks])
      (by simp [hatoms, Atom.Lacks]) htext
  obtain ⟨other, hother, hlines⟩ := hwidths 3
  obtain ⟨code, hcode, hline⟩ := hcalls 0 _ rfl
  refine ⟨text, other, htext, hother, hlength, htab, ?_⟩
  cases hcode
  obtain ⟨rest, rfl⟩ : ∃ rest, bodyLines =
      "_print(string_value(\"\\t\\n\\n\\t\"));".toList :: rest := by
    rw [← List.head?_eq_getElem?, List.head?_eq_some_iff] at hline
    exact hline
  rw [hlines]
  rfl

end Code

end Lowering
