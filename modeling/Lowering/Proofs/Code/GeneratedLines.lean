import Lowering.Proofs.Code.Resolution
import Lowering.Proofs.Code.Layout
import Lowering.Proofs.Include.Filtering

/-!
# The lines of generated code

A newline can get into a definition from its names and numbers only.  Where they
have none, the lines of a definition are those of its frame and one for each
statement, and each of them begins in a way that is known: with a type, a brace,
a name or `return`.  So none of them can be taken for a directive, whatever a
string of the program holds.

## Main results

* `split_printDefinition`, `split_declarations` — the lines of a definition, and
  those of the declarations.
* `isRedundant_of_mem_definitions`, `isRedundant_of_mem_declarations` — no line
  of the generated code is a redundant directive.
-/

namespace Lowering.Code

/-! ## Definitions -/

/-- The lines of a definition before tabs are expanded. -/
def definitionLines (d : Definition) : List Text :=
  signatureLine d :: ['\x7b'] ::
    ((statements (printExpressions (d.body.map Call.toExpr))).map ('\t' :: ·)
      ++ [['\x7d']])

theorem statements_ne_nil (texts : List Text) : statements texts ≠ [] := by
  fun_cases statements texts <;> simp

theorem functionText_printBody (d : Definition) :
    functionText d (printBody d.body) =
      Text.join ['\n'] (definitionLines d) := by
  obtain ⟨first, rest, hstatements⟩ := List.exists_cons_of_ne_nil
    (statements_ne_nil (printExpressions (d.body.map Call.toExpr)))
  rw [functionText, printBody, definitionLines, hstatements, Text.join_cons,
    Text.join_cons]
  simp [List.flatMap_map]

theorem not_mem_expandTabs {c : Char} (hc : c ≠ ' ') (width : Nat)
    {text : Text} (h : c ∉ text) : c ∉ expandTabs width text := by
  simp only [expandTabs, List.mem_flatMap, not_exists, not_and]
  intro d hd hmem
  split at hmem
  · exact hc (List.eq_of_mem_replicate hmem)
  · rw [List.mem_singleton.1 hmem] at h
    exact h hd

theorem not_mem_of_mem_definitionLines {d : Definition}
    (h : ∀ atom ∈ d.atoms, atom.Lacks '\n') :
    ∀ line ∈ definitionLines d, '\n' ∉ line := by
  have hstatements := not_mem_of_mem_bodyStatements (by decide) h
  simp only [definitionLines, List.forall_mem_cons, List.forall_mem_append,
    List.forall_mem_map]
  refine ⟨not_mem_signatureLine (by decide) h, by decide, ?_, by decide, by simp⟩
  intro statement hstatement
  simpa using hstatements statement hstatement

theorem split_printDefinition (indent : Nat) {d : Definition}
    (h : ∀ atom ∈ d.atoms, atom.Lacks '\n') :
    Text.split '\n' (printDefinition indent d) =
      (definitionLines d).map (expandTabs indent) := by
  have hnewline : expandTabs indent ['\n'] = ['\n'] :=
    expandTabs_eq_self indent (by decide)
  rw [printDefinition, functionText_printBody, expandTabs_join, hnewline]
  apply Text.split_join
  · simp [definitionLines]
  · rw [List.forall_mem_map]
    intro line hline
    exact not_mem_expandTabs (by decide) indent
      (not_mem_of_mem_definitionLines h line hline)

/-! ## How lines begin -/

section Redundant

variable {provided : List Text}

/-- The first character decides, and a tab is a blank before and after it is
expanded. -/
theorem isRedundant_expandTabs_cons (width : Nat) {c : Char} {rest : Text}
    (hblank : Text.isBlank c = false) (hhash : c ≠ '#') :
    Include.isRedundant provided (expandTabs width (c :: rest)) = false := by
  have htab : c ≠ '\t' := by
    rintro rfl
    exact absurd hblank (by decide)
  rw [expandTabs, List.flatMap_cons, if_neg htab]
  exact Include.isRedundant_cons hblank hhash

theorem isRedundant_expandTabs_tab (width : Nat) (line : Text) :
    Include.isRedundant provided (expandTabs width ('\t' :: line)) =
      Include.isRedundant provided (expandTabs width line) := by
  rw [expandTabs, List.flatMap_cons, if_pos rfl]
  exact Include.isRedundant_indented width _

/-- A statement begins with `return` or with the name of the function that it
calls. -/
theorem head_of_mem_statements {texts : List Text}
    (h : ∀ text ∈ texts, ∃ rest, text = '_' :: rest) {statement : Text}
    (hmem : statement ∈ statements texts) :
    ∃ c rest, statement = c :: rest ∧ (c = 'r' ∨ c = '_') := by
  fun_induction statements texts with
  | case1 =>
      rw [List.mem_singleton.1 hmem]
      exact ⟨'r', _, rfl, .inl rfl⟩
  | case2 last =>
      rw [List.mem_singleton.1 hmem]
      exact ⟨'r', _, rfl, .inl rfl⟩
  | case3 first next rest ih =>
      rw [List.forall_mem_cons] at h
      rcases List.mem_cons.1 hmem with rfl | hmem
      · obtain ⟨tail, rfl⟩ := h.1
        exact ⟨'_', _, rfl, .inr rfl⟩
      · exact ih h.2 hmem

theorem exists_cons_of_mem_printExpressions {calls : List Call} {text : Text}
    (h : text ∈ printExpressions (calls.map Call.toExpr)) :
    ∃ rest, text = '_' :: rest := by
  induction calls with
  | nil => simp [printExpressions] at h
  | cons call calls ih =>
      rw [List.map_cons, printExpressions, List.mem_cons] at h
      rcases h with rfl | h
      · exact ⟨_, rfl⟩
      · exact ih h

theorem isRedundant_of_mem_definitionLines (indent : Nat) {d : Definition}
    {line : Text} (h : line ∈ definitionLines d) :
    Include.isRedundant provided (expandTabs indent line) = false := by
  simp only [definitionLines, List.mem_cons, List.mem_append, List.mem_map,
    List.not_mem_nil, or_false] at h
  rcases h with rfl | rfl | ⟨statement, hstatement, rfl⟩ | rfl
  -- The line begins with a type, a brace, a tab and a statement, or a brace.
  · exact isRedundant_expandTabs_cons indent (by decide) (by decide)
  · exact isRedundant_expandTabs_cons indent (by decide) (by decide)
  · obtain ⟨c, rest, rfl, hc⟩ := head_of_mem_statements
      (fun text => exists_cons_of_mem_printExpressions) hstatement
    rw [isRedundant_expandTabs_tab]
    rcases hc with rfl | rfl
    · exact isRedundant_expandTabs_cons indent (by decide) (by decide)
    · exact isRedundant_expandTabs_cons indent (by decide) (by decide)
  · exact isRedundant_expandTabs_cons indent (by decide) (by decide)

/-! ## Generated code -/

variable {program : Program} {code : Functions} {line : Text}

theorem isRedundant_of_mem_definitions {indent : Nat}
    (hcode : code.ConsistsOf program (printDefinition indent))
    (hlacks : ∀ atom ∈ program.atoms, atom.Lacks '\n')
    (h : line ∈ Text.split '\n' code.definitions) :
    Include.isRedundant provided line = false := by
  rw [hcode.definitions_eq] at h
  rcases Text.mem_split_join_pair h with rfl | ⟨text, htext, hline⟩
  · exact Include.isRedundant_nil
  · obtain ⟨d, hd, rfl⟩ := List.mem_map.1 htext
    have hatoms : ∀ atom ∈ d.atoms, atom.Lacks '\n' := fun atom hatom =>
      hlacks atom (Program.mem_atoms hd hatom)
    rw [split_printDefinition indent hatoms] at hline
    obtain ⟨source, hsource, rfl⟩ := List.mem_map.1 hline
    exact isRedundant_of_mem_definitionLines indent hsource

theorem not_mem_declaration {signature : Signature}
    (hname : '\n' ∉ signature.name.toList) : '\n' ∉ declaration signature := by
  have htypes : '\n' ∉ parameterTypes signature.arity := by
    refine not_mem_join (by decide) fun piece hpiece => ?_
    rw [List.eq_of_mem_replicate hpiece]
    decide
  have happlication : '\n' ∉ application (mangle signature.name)
      [parameterTypes signature.arity] := by
    refine not_mem_application (by decide) (not_mem_mangle (by decide) hname) ?_
    simpa using htypes
  have htype : '\n' ∉ valueType := by decide
  simp_all [declaration]

theorem split_declarations {text : Definition → Text} (hne : program ≠ [])
    (hcode : code.ConsistsOf program text)
    (hlacks : ∀ atom ∈ program.atoms, atom.Lacks '\n') :
    Text.split '\n' code.declarations =
      program.map fun d => declaration d.signature := by
  rw [hcode.declarations_eq]
  refine Text.split_join _ (by simpa using hne) ?_
  rw [List.forall_mem_map]
  intro d hd
  have hname : Atom.Lacks '\n' (.name d.name.text) :=
    hlacks _ (Program.mem_atoms hd List.mem_cons_self)
  exact not_mem_declaration hname

theorem isRedundant_of_mem_declarations {text : Definition → Text}
    (hcode : code.ConsistsOf program text)
    (hlacks : ∀ atom ∈ program.atoms, atom.Lacks '\n')
    (h : line ∈ Text.split '\n' code.declarations) :
    Include.isRedundant provided line = false := by
  by_cases hnil : program = []
  · subst hnil
    rw [hcode.declarations_eq] at h
    rw [List.mem_singleton.1 h]
    exact Include.isRedundant_nil
  · rw [split_declarations hnil hcode hlacks] at h
    obtain ⟨d, -, rfl⟩ := List.mem_map.1 h
    exact Include.isRedundant_cons (by decide) (by decide)

end Redundant

end Lowering.Code
