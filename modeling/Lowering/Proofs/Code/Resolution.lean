import Lowering.Proofs.Code.Checking
import Lowering.Proofs.FunctionTable.Agreement

/-!
# What a change of the table can do

Lowering is a verdict on the violations of a program, and these depend on the
table.  A table that grows can cure one kind of violation only: a call of an
unknown function, when the table learns its name.  So the first violation stays
the first one unless it is of this kind (`persists_violations`).  This is the
one induction over expressions in this file.  With no new names at all it says
that tables which agree give the same results; with the names of further
definitions it says what appending them does.

## Main results

* `definition_congr` and its companions — tables that agree lower everything
  alike.
* `resolution_depends_on_first_arity` — definitions that are never found have no
  influence, and neither has the order of definitions.
* `functions_append_conservative` — further definitions leave the text and the
  errors of the earlier ones as they are.
-/

namespace Lowering.Code

open FunctionTable

/-! ## Violations that persist -/

section Persists

variable {ε δ : Type} {cured : ε → Prop}

/-- The first fault stays the first one, unless it can have been cured. -/
def Persists (cured : ε → Prop) (faults later : List ε) : Prop :=
  (∀ fault ∈ faults.head?, ¬ cured fault) → later.head? = faults.head?

theorem Persists.refl (faults : List ε) : Persists cured faults faults :=
  fun _ => rfl

theorem Persists.eq_nil {later : List ε} (h : Persists cured [] later) :
    later = [] :=
  List.head?_eq_none_iff.1 (h (by simp))

theorem Persists.append {faults later faults' later' : List ε}
    (h : Persists cured faults later) (h' : Persists cured faults' later') :
    Persists cured (faults ++ faults') (later ++ later') := by
  cases faults with
  | nil =>
      rw [h.eq_nil]
      exact h'
  | cons fault rest =>
      intro hnot
      have hfirst : later.head? = some fault := h hnot
      rw [List.head?_append, hfirst]
      rfl

theorem Persists.map {faults later : List ε} (h : Persists cured faults later)
    {cured' : δ → Prop} {f : ε → δ}
    (hf : ∀ fault, cured fault → cured' (f fault)) :
    Persists cured' (faults.map f) (later.map f) := by
  intro hnot
  rw [List.head?_map, List.head?_map]
  rw [h fun fault hfault hcured => ?_]
  apply hnot (f fault) _ (hf fault hcured)
  rw [List.head?_map, hfault]
  rfl

theorem Persists.flatMap {α : Type} {faults later : α → List ε}
    (h : ∀ item, Persists cured (faults item) (later item)) (items : List α) :
    Persists cured (items.flatMap faults) (items.flatMap later) := by
  induction items with
  | nil => exact Persists.refl []
  | cons item items ih =>
      rw [List.flatMap_cons, List.flatMap_cons]
      exact (h item).append ih

/-- Results depend on the first fault only. -/
theorem verdict_congr {α : Type} {faults later : List ε}
    (h : later.head? = faults.head?) (value : α) :
    verdict later value = verdict faults value := by
  cases faults with
  | nil => rw [List.head?_eq_none_iff.1 h]
  | cons fault rest =>
      obtain ⟨rest', rfl⟩ := List.head?_eq_some_iff.1 h
      rfl

end Persists

/-- A fault that goes away when the table learns the names. -/
def Cured (new : String → Prop) : CallFault → Prop
  | .undefined name _ => new name
  | .tooFew _ _ _ _ => False

theorem violations_call (table : FunctionTable) (callee : Ident)
    (args : List Expr) :
    violations table (.call callee args) =
      match table.arity? callee.text with
      | none => [.undefined callee.text callee.line]
      | some arity =>
          violationsOfAll table args ++
            if args.length < arity then
              [.tooFew callee.text callee.line arity args.length]
            else [] := by
  rw [violations, arity?]
  cases table.lookup? callee.text <;> rfl

section Growth

variable {new : String → Prop} {t u : FunctionTable}

mutual

theorem persists_violations (h : Grows new t u) (e : Expr) :
    Persists (Cured new) (violations t e) (violations u e) := by
  match e with
  | .int _ => exact Persists.refl []
  | .float _ => exact Persists.refl []
  | .string _ => exact Persists.refl []
  | .name _ => exact Persists.refl []
  | .array values =>
      rw [violations, violations]
      exact persists_violationsOfAll h values
  | .branch condition truthy falsy =>
      rw [violations, violations]
      exact ((persists_violations h condition).append
        (persists_violations h truthy)).append (persists_violations h falsy)
  | .call callee args =>
      rw [violations_call, violations_call]
      rcases h callee.text with hsame | ⟨hnone, hnew⟩
      · rw [hsame]
        cases t.arity? callee.text with
        | none => exact Persists.refl _
        | some arity =>
            exact (persists_violationsOfAll h args).append (Persists.refl _)
      · -- The name was learned, so the first fault is one that can be cured.
        rw [hnone]
        intro hnot
        exact absurd hnew (hnot _ rfl)

theorem persists_violationsOfAll (h : Grows new t u) (values : List Expr) :
    Persists (Cured new) (violationsOfAll t values)
      (violationsOfAll u values) := by
  match values with
  | [] => exact Persists.refl []
  | value :: values =>
      rw [violationsOfAll, violationsOfAll]
      exact (persists_violations h value).append
        (persists_violationsOfAll h values)

end

end Growth

/-! ## Tables that agree -/

section Agree

variable {t u : FunctionTable}

theorem head?_violationsOfAll_congr (h : Agree t u) (values : List Expr) :
    (violationsOfAll t values).head? = (violationsOfAll u values).head? := by
  refine (persists_violationsOfAll h.grows values ?_).symm
  rintro (⟨_, _⟩ | ⟨_, _, _, _⟩) _ hcured <;> exact hcured

theorem expressions_congr (h : Agree t u) (values : List Expr) :
    expressions t values = expressions u values := by
  rw [expressions_eq_verdict, expressions_eq_verdict]
  exact verdict_congr (head?_violationsOfAll_congr h values) _

theorem expression_congr (h : Agree t u) (e : Expr) :
    expression t e = expression u e := by
  have hone := head?_violationsOfAll_congr h [e]
  simp only [violationsOfAll, List.append_nil] at hone
  rw [expression_eq_verdict, expression_eq_verdict]
  exact verdict_congr hone _

theorem body_congr (h : Agree t u) (calls : List Call) :
    body t calls = body u calls := by
  rw [body, body, expressions_congr h]

theorem definition_congr (h : Agree t u) (indent : Nat) (d : Definition) :
    definition t indent d = definition u indent d := by
  rw [definition, definition, body_congr h]

end Agree

/-! ## Whole programs -/

/-- The code is made of one text and one declaration for each definition of the
program, in the order of the program. -/
structure Functions.ConsistsOf (code : Functions) (program : Program)
    (text : Definition → Text) : Prop where
  definitions_eq :
    code.definitions = Text.join "\n\n".toList (program.map text)
  declarations_eq :
    code.declarations =
      Text.join ['\n'] (program.map fun d => declaration d.signature)

theorem definition_eq_ok_iff {table : FunctionTable} {indent : Nat}
    {d : Definition} {text : Text} :
    definition table indent d = .ok text ↔
      bodyViolations table d = [] ∧ printDefinition indent d = text := by
  rw [definition_eq_verdict, verdict_eq_ok_iff, List.map_eq_nil_iff]

theorem functions_eq_ok_iff {indent : Nat} {program : Program}
    {code : Functions} :
    functions indent program = .ok code ↔
      (∀ d ∈ program, bodyViolations (ofProgram program) d = []) ∧
        code.ConsistsOf program (printDefinition indent) := by
  have hdeclarations : declarations (ofProgram program) =
      Text.join ['\n'] (program.map fun d => declaration d.signature) := by
    rw [declarations, ofUser_ofProgram, List.map_map]
    rfl
  rw [functions_eq_verdict, verdict_eq_ok_iff, List.flatMap_eq_nil_iff]
  simp only [List.map_eq_nil_iff]
  refine and_congr_right fun _ => ⟨?_, ?_⟩
  · rintro rfl
    exact ⟨rfl, hdeclarations⟩
  · rintro ⟨hdefinitions, hdecl⟩
    cases code
    rw [hdeclarations, ← hdecl, printDefinitions, ← hdefinitions]

theorem bodyViolations_eq_nil_congr {t u : FunctionTable} (h : Agree t u)
    (d : Definition) : bodyViolations t d = [] ↔ bodyViolations u d = [] := by
  rw [← List.head?_eq_none_iff, ← List.head?_eq_none_iff, bodyViolations,
    bodyViolations, head?_violationsOfAll_congr h]

/--
Lowering asks a table for the arity of the first entry of each name and for
nothing else.  So a definition whose name is taken already, by the runtime or by
an earlier definition, can be put in, left out or given other parameters without
any effect on the others; and where equal names have equal arities the order of
the definitions only orders the texts.
-/
theorem resolution_depends_on_first_arity :
    (∀ t u : FunctionTable,
      (∀ name, (t.lookup? name).map Signature.arity =
        (u.lookup? name).map Signature.arity) →
      (∀ e, expression t e = expression u e) ∧
      (∀ c, call t c = call u c) ∧
      (∀ calls, body t calls = body u calls) ∧
      ∀ indent d, definition t indent d = definition u indent d) ∧
    (∀ (before : Program) (d : Definition) (after : Program),
      ((∃ arity, (d.name.text, arity) ∈ runtimeFunctions) ∨
        ∃ earlier ∈ before, earlier.name.text = d.name.text) →
      ∀ indent other,
        definition (ofProgram (before ++ d :: after)) indent other =
          definition (ofProgram (before ++ after)) indent other ∧
        ∀ params,
          definition (ofProgram (before ++ { d with params } :: after)) indent
              other =
            definition (ofProgram (before ++ d :: after)) indent other) ∧
    ∀ p q : Program, p.Perm q →
      (∀ d ∈ p, ∀ e ∈ p, d.name.text = e.name.text → d.arity = e.arity) →
      ∀ indent,
        ((∃ code, functions indent p = .ok code) ↔
          ∃ code, functions indent q = .ok code) ∧
        ∀ code code', functions indent p = .ok code →
          functions indent q = .ok code' →
          ∃ text : Definition → Text,
            (∀ d ∈ p, definition (ofProgram p) indent d = .ok (text d) ∧
              definition (ofProgram q) indent d = .ok (text d)) ∧
            code.ConsistsOf p text ∧ code'.ConsistsOf q text := by
  refine ⟨?_, ?_, ?_⟩
  · intro t u h
    exact ⟨expression_congr h, fun c => expression_congr h c.toExpr,
      body_congr h, definition_congr h⟩
  · intro before d after htaken indent other
    have hd := Program.agree_insert htaken after
    refine ⟨definition_congr hd indent other, fun params => ?_⟩
    have hd' : Agree (ofProgram (before ++ { d with params } :: after))
        (ofProgram (before ++ after)) :=
      Program.agree_insert (d := { d with params }) htaken after
    exact definition_congr (hd'.trans hd.symm) indent other
  · intro p q hperm hcoherent indent
    have hagree := Program.agree_of_perm hperm hcoherent
    have haccepted : (∀ d ∈ p, bodyViolations (ofProgram p) d = []) ↔
        ∀ d ∈ q, bodyViolations (ofProgram q) d = [] := by
      simp only [hperm.mem_iff, bodyViolations_eq_nil_congr hagree]
    constructor
    · have hexists : ∀ program : Program,
          ∃ code : Functions,
            code.ConsistsOf program (printDefinition indent) :=
        fun program => ⟨⟨_, _⟩, rfl, rfl⟩
      simp only [functions_eq_ok_iff, exists_and_left, hexists, and_true,
        haccepted]
    · intro code code' hcode hcode'
      obtain ⟨hp, hconsists⟩ := functions_eq_ok_iff.1 hcode
      obtain ⟨hq, hconsists'⟩ := functions_eq_ok_iff.1 hcode'
      refine ⟨printDefinition indent, fun d hd => ?_, hconsists, hconsists'⟩
      exact ⟨definition_eq_ok_iff.2 ⟨hp d hd, rfl⟩,
        definition_eq_ok_iff.2 ⟨hq d (hperm.mem_iff.1 hd), rfl⟩⟩

/-- Entries that are never found, a definition of a runtime function, and two
definitions that change places. -/
theorem resolution_depends_on_first_arity_instances :
    let main : Definition :=
      { name := ⟨"main", 1⟩
        body := [{ callee := ⟨"print", 2⟩, args := [.call ⟨"one", 2⟩ []] }] }
    let one : Definition := { name := ⟨"one", 3⟩ }
    let print : Definition := { name := ⟨"print", 4⟩ }
    (∀ e, expression [⟨"f", 1, true⟩, ⟨"f", 2, true⟩] e =
      expression [⟨"f", 1, false⟩] e) ∧
    (definition (ofProgram [main, print, one]) 4 main =
        definition (ofProgram [main, one]) 4 main ∧
      definition (ofProgram [main, { print with params := [⟨"x", 4⟩] }, one]) 4
          main =
        definition (ofProgram [main, print, one]) 4 main) ∧
    ∃ code code', functions 4 [main, one] = .ok code ∧
      functions 4 [one, main] = .ok code' ∧
      ∃ text : Definition → Text,
        (∀ d ∈ [main, one],
          definition (ofProgram [main, one]) 4 d = .ok (text d) ∧
            definition (ofProgram [one, main]) 4 d = .ok (text d)) ∧
        code.ConsistsOf [main, one] text ∧ code'.ConsistsOf [one, main] text := by
  intro main one print
  obtain ⟨htables, htaken, hperm⟩ := resolution_depends_on_first_arity
  refine ⟨?_, ?_, _, _, rfl, rfl, ?_⟩
  · refine (htables _ _ fun name => ?_).1
    by_cases h : "f" = name <;> simp [lookup?, h]
  · obtain ⟨hinsert, hparams⟩ :=
      htaken [main] print [one] (.inl ⟨1, by decide⟩) 4 main
    exact ⟨hinsert, hparams [⟨"x", 4⟩]⟩
  · exact (hperm [main, one] [one, main] (List.Perm.swap _ _ _) (by decide)
      4).2 _ _ rfl rfl

/-! ## Further definitions -/

/-- The errors that definitions with these names can cure. -/
def CuredBy (more : Program) (error : Error) : Prop :=
  ∃ fault, error.fault = .call fault ∧
    Cured (fun name => ∃ d ∈ more, d.name.text = name) fault

theorem curedBy_iff {more : Program} {error : Error} {fault : CallFault}
    (h : error.fault = .call fault) :
    CuredBy more error ↔
      Cured (fun name => ∃ d ∈ more, d.name.text = name) fault := by
  simp [CuredBy, h]

theorem persists_reports (program more : Program) :
    Persists (CuredBy more)
      (program.flatMap fun d =>
        (bodyViolations (ofProgram program) d).map (reported d))
      (program.flatMap fun d =>
        (bodyViolations (ofProgram (program ++ more)) d).map (reported d)) := by
  apply Persists.flatMap
  intro d
  apply (persists_violationsOfAll (Program.grows_append program more) _).map
  intro fault hcured
  exact ⟨fault, rfl, hcured⟩

theorem functions_append_eq_error {indent : Nat} {program more : Program}
    {error : Error} (h : functions indent program = .error error)
    (hnot : ¬ CuredBy more error) :
    functions indent (program ++ more) = .error error := by
  rw [functions_eq_verdict, verdict_eq_error_iff] at h ⊢
  have hfirst := persists_reports program more (by simpa [h] using hnot)
  rw [List.flatMap_append, List.head?_append, hfirst, h]
  rfl

/-- What is wrong with a longer program, if nothing was wrong before, is wrong
with a definition that was added. -/
theorem exists_mem_of_functions_append_eq_error {indent : Nat}
    {program more : Program} {code : Functions} {error : Error}
    (h : functions indent program = .ok code)
    (herror : functions indent (program ++ more) = .error error) :
    ∃ d ∈ more, ∃ fault, error = reported d fault := by
  have hnone : (program.flatMap fun d =>
      (bodyViolations (ofProgram (program ++ more)) d).map (reported d)) = [] := by
    have hpersists := persists_reports program more
    rw [functions_eq_verdict, verdict_eq_ok_iff] at h
    rw [h.1] at hpersists
    exact hpersists.eq_nil
  rw [functions_eq_verdict, verdict_eq_error_iff, List.flatMap_append, hnone,
    List.nil_append, head?_reports_eq_some_iff] at herror
  obtain ⟨before, d, after, fault, _, rfl, _, _, rfl⟩ := herror
  exact ⟨d, by simp, fault, rfl⟩

theorem Functions.ConsistsOf.isPrefix {code code' : Functions}
    {program more : Program} {text : Definition → Text}
    (h : code.ConsistsOf program text)
    (h' : code'.ConsistsOf (program ++ more) text) :
    code.definitions <+: code'.definitions ∧
      code.declarations <+: code'.declarations := by
  rw [h.definitions_eq, h'.definitions_eq, h.declarations_eq, h'.declarations_eq,
    List.map_append, List.map_append]
  exact ⟨Text.isPrefix_join_append _ _ _, Text.isPrefix_join_append _ _ _⟩

/--
Appending definitions is conservative.  The texts and declarations of an
accepted program stay, in front of those that are added, or the error is in an
added definition.  A lack of arguments is reported as before, and so is an
unknown function unless a definition with its name was added.
-/
theorem functions_append_conservative (indent : Nat) (program more : Program) :
    (∀ code, functions indent program = .ok code →
      (∃ error, functions indent (program ++ more) = .error error ∧
        ∃ d ∈ more, error.context = some
          { source := none, line := none, stack := [d.name.text] }) ∨
      ∃ code' text, functions indent (program ++ more) = .ok code' ∧
        (∀ d ∈ program, definition (ofProgram program) indent d = .ok (text d) ∧
          definition (ofProgram (program ++ more)) indent d = .ok (text d)) ∧
        code.ConsistsOf program text ∧ code'.ConsistsOf (program ++ more) text ∧
        code.definitions <+: code'.definitions ∧
        code.declarations <+: code'.declarations) ∧
    (∀ error name line expected actual,
      functions indent program = .error error →
      error.fault = .call (.tooFew name line expected actual) →
      functions indent (program ++ more) = .error error) ∧
    ∀ error name line,
      functions indent program = .error error →
      error.fault = .call (.undefined name line) →
      (∀ d ∈ more, d.name.text ≠ name) →
      functions indent (program ++ more) = .error error := by
  refine ⟨?_, ?_, ?_⟩
  · intro code hcode
    cases hresult : functions indent (program ++ more) with
    | error error =>
        obtain ⟨d, hd, fault, rfl⟩ :=
          exists_mem_of_functions_append_eq_error hcode hresult
        exact .inl ⟨_, rfl, d, hd, rfl⟩
    | ok code' =>
        obtain ⟨hprogram, hconsists⟩ := functions_eq_ok_iff.1 hcode
        obtain ⟨hboth, hconsists'⟩ := functions_eq_ok_iff.1 hresult
        refine .inr ⟨code', printDefinition indent, rfl, fun d hd => ?_,
          hconsists, hconsists', hconsists.isPrefix hconsists'⟩
        exact ⟨definition_eq_ok_iff.2 ⟨hprogram d hd, rfl⟩,
          definition_eq_ok_iff.2 ⟨hboth d (by simp [hd]), rfl⟩⟩
  · intro error name line expected actual herror hfault
    apply functions_append_eq_error herror
    rw [curedBy_iff hfault]
    exact id
  · intro error name line herror hfault hnew
    apply functions_append_eq_error herror
    rw [curedBy_iff hfault]
    rintro ⟨d, hd, hname⟩
    exact hnew d hd hname

/-- A program that is accepted, one that lacks arguments and one with an unknown
function, each with a definition added that shadows nothing. -/
theorem functions_append_conservative_instances :
    let main : Definition :=
      { name := ⟨"main", 1⟩, body := [{ callee := ⟨"null", 2⟩ }] }
    let short : Definition :=
      { name := ⟨"short", 3⟩, body := [{ callee := ⟨"add", 4⟩ }] }
    let lost : Definition :=
      { name := ⟨"lost", 5⟩, body := [{ callee := ⟨"nowhere", 6⟩ }] }
    let add : Definition := { name := ⟨"add", 7⟩ }
    (∃ code code', functions 4 [main] = .ok code ∧
      functions 4 [main, add] = .ok code' ∧
      code.definitions <+: code'.definitions ∧
      code.declarations <+: code'.declarations) ∧
    functions 4 [short, add] =
      .error (reported short (.tooFew "add" 4 2 0)) ∧
    functions 4 [lost, add] =
      .error (reported lost (.undefined "nowhere" 6)) := by
  intro main short lost add
  refine ⟨?_, ?_, ?_⟩
  · rcases (functions_append_conservative 4 [main] [add]).1 _ rfl with
      ⟨error, herror, _⟩ | ⟨code', _, hcode', _, _, _, hdefs, hdecls⟩
    · cases herror
    · exact ⟨_, code', rfl, hcode', hdefs, hdecls⟩
  · exact (functions_append_conservative 4 [short] [add]).2.1 _ "add" 4 2 0
      rfl rfl
  · exact (functions_append_conservative 4 [lost] [add]).2.2 _ "nowhere" 6
      rfl rfl (by decide)

end Lowering.Code
