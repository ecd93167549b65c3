import Lowering.Proofs.Code.DefinitionLines

/-!
# Declarations and definitions

The two are written from different sources.  A declaration comes from an entry
of the function table, which keeps a name and a number of parameters; a
definition comes from the program and goes through the expansion of tabs.  They
agree line by line nevertheless: the table has an entry for each definition,
also for those that are never found, and a definition begins with the line that
its declaration is the outline of.

Definitions are separated by blank lines.  No definition has one inside, since
each of its lines begins with a type, a brace or a statement.

## Main results

* `without_parameters` — what is left of the parameters without their names.
* `blocks_definitions` — the blocks of the generated code are its definitions.
* `declarations_match_definitions` — one declaration for each definition, and it
  is the first line of the definition without the names of the parameters.
-/

namespace Lowering

/-! ## Taking out words -/

namespace Text

/-- Takes words out of a text one after the other: each goes where it first
stands behind the one before. -/
def without : List Text → Text → Text
  | [], text => text
  | word :: words, text =>
      match text.dropInfix? word with
      | none => text
      | some (front, behind) => front ++ without words behind

theorem without_cons {word front behind text : Text}
    (h : text.dropInfix? word = some (front, behind)) (words : List Text) :
    without (word :: words) text = front ++ without words behind := by
  rw [without, h]

end Text

namespace Code

/-- A name is not found before it stands there, as long as there is no
underscore in front. -/
theorem dropInfix?_mangle {front : Text} (h : '_' ∉ front) (name : String)
    (rest : Text) :
    (front ++ ' ' :: mangle name ++ rest).dropInfix? (' ' :: mangle name) =
      some (front, rest) := by
  rw [List.dropInfix?_eq_some_iff]
  refine ⟨⟨' ' :: mangle name, rfl, by simp⟩, ?_⟩
  intro front' word rest' heq hword
  obtain rfl : word = ' ' :: mangle name := by simpa using hword
  -- An earlier place would begin inside of what is in front.
  rw [List.append_assoc, List.append_assoc, List.append_eq_append_iff] at heq
  rcases heq with ⟨more, rfl, -⟩ | ⟨more, rfl, hmore⟩
  · rw [List.length_append]
    omega
  · cases more with
    | nil => simp
    | cons c more =>
        exfalso
        cases more with
        | nil => simp [mangle] at hmore
        | cons next more =>
            obtain rfl : '_' = next := by
              simp only [mangle, List.cons_append, List.cons.injEq] at hmore
              exact hmore.2.1
            exact h (by simp)

theorem without_further_parameters (params : List Ident) :
    Text.without (params.map fun p => ' ' :: mangle p.text)
        (params.flatMap fun p =>
          ", ".toList ++ (valueType ++ ' ' :: mangle p.text)) =
      params.flatMap fun _ => ", ".toList ++ valueType := by
  induction params with
  | nil => rfl
  | cons p params ih =>
      have hfront : '_' ∉ ", ".toList ++ valueType := by decide
      have hcut := dropInfix?_mangle hfront p.text
        (params.flatMap fun p =>
          ", ".toList ++ (valueType ++ ' ' :: mangle p.text))
      rw [List.map_cons, List.flatMap_cons, List.flatMap_cons,
        ← List.append_assoc ", ".toList, Text.without_cons hcut, ih]

/-- Without their names, all that is left of the parameters are their types. -/
theorem without_parameters (params : List Ident) :
    Text.without (params.map fun p => " _".toList ++ p.text.toList)
        (Text.join ", ".toList
          (params.map fun p => "Value* _".toList ++ p.text.toList)) =
      Text.join ", ".toList (List.replicate params.length "Value*".toList) := by
  have hname : ∀ p : Ident,
      " _".toList ++ p.text.toList = ' ' :: mangle p.text := fun _ => rfl
  simp only [hname, value_mangle, ← List.map_const']
  cases params with
  | nil => rfl
  | cons p params =>
      have hfront : '_' ∉ valueType := by decide
      have hcut := dropInfix?_mangle hfront p.text
        (params.flatMap fun p =>
          ", ".toList ++ (valueType ++ ' ' :: mangle p.text))
      simp only [List.map_cons, Text.join_cons, List.flatMap_map]
      rw [Text.without_cons hcut, without_further_parameters]
      rfl

/-! ## Blocks and declarations -/

section Blocks

variable {indent : Nat} {program : Program} {code : Functions}

theorem ne_nil_of_mem_split_printDefinition {d : Definition}
    (htab : ∀ atom ∈ d.atoms, atom.Lacks '\t')
    (hnewline : ∀ atom ∈ d.atoms, atom.Lacks '\n') :
    ∀ line ∈ Text.split '\n' (printDefinition indent d), line ≠ [] := by
  rw [split_printDefinition_of_lacks indent htab hnewline]
  simp only [List.forall_mem_cons, List.forall_mem_append, List.forall_mem_map]
  refine ⟨List.cons_ne_nil _ _, by decide, ?_, by decide, by simp⟩
  intro statement hstatement
  obtain ⟨c, rest, rfl, -⟩ := head_of_mem_statements
    (fun text => exists_cons_of_mem_printExpressions) hstatement
  simp

theorem blocks_definitions (hne : program ≠ [])
    (hcode : code.ConsistsOf program (printDefinition indent))
    (htab : ∀ atom ∈ program.atoms, atom.Lacks '\t')
    (hnewline : ∀ atom ∈ program.atoms, atom.Lacks '\n') :
    Text.blocks code.definitions = program.map (printDefinition indent) := by
  rw [hcode.definitions_eq]
  refine Text.blocks_join (by simpa using hne) ?_
  rw [List.forall_mem_map]
  intro d hd
  exact ne_nil_of_mem_split_printDefinition
    (fun atom hatom => htab atom (Program.mem_atoms hd hatom))
    (fun atom hatom => hnewline atom (Program.mem_atoms hd hatom))

theorem declaration_signature (d : Definition) :
    declaration d.signature =
      "Value* _".toList ++ d.name.text.toList ++ "(".toList ++
        Text.join ", ".toList
          (List.replicate d.params.length "Value*".toList) ++
        ")".toList ++ ";".toList := by
  rw [declaration, value_application]
  rfl

end Blocks

/--
A program whose names and numbers have no tab and no newline has one line of
declarations and one block of definitions for each of its definitions, in order
and whatever their names.  The line is the first line of the block without the
names of the parameters, and with a semicolon; it has one type for each of them.
-/
theorem declarations_match_definitions {indent : Nat} {program : Program}
    {code : Functions} (hne : program ≠ [])
    (htab : ∀ atom ∈ program.atoms, atom.Lacks '\t')
    (hnewline : ∀ atom ∈ program.atoms, atom.Lacks '\n')
    (h : functions indent program = .ok code) :
    (Text.split '\n' code.declarations).length = program.length ∧
    (Text.blocks code.definitions).length = program.length ∧
    ∀ (i : Nat) (d : Definition), program[i]? = some d →
      ∃ line block params,
        (Text.split '\n' code.declarations)[i]? = some line ∧
        (Text.blocks code.definitions)[i]? = some block ∧
        (Text.split '\n' block).head? =
          some ("Value* _".toList ++ d.name.text.toList ++ "(".toList ++
            params ++ ")".toList) ∧
        line =
          "Value* _".toList ++ d.name.text.toList ++ "(".toList ++
            Text.without (d.params.map fun p => " _".toList ++ p.text.toList)
              params ++
            ")".toList ++ ";".toList ∧
        Text.without (d.params.map fun p => " _".toList ++ p.text.toList)
            params =
          Text.join ", ".toList
            (List.replicate d.params.length "Value*".toList) := by
  have hcode := (functions_eq_ok_iff.1 h).2
  rw [split_declarations hne hcode hnewline,
    blocks_definitions hne hcode htab hnewline]
  refine ⟨List.length_map _, List.length_map _, ?_⟩
  intro i d hd
  have hmem : d ∈ program := List.mem_of_getElem? hd
  refine ⟨declaration d.signature, printDefinition indent d,
    Text.join ", ".toList
      (d.params.map fun p => "Value* _".toList ++ p.text.toList),
    by simp [hd], by simp [hd], ?_, ?_, without_parameters d.params⟩
  · rw [split_printDefinition_of_lacks indent
        (fun atom hatom => htab atom (Program.mem_atoms hmem hatom))
        (fun atom hatom => hnewline atom (Program.mem_atoms hmem hatom)),
      List.head?_cons, signatureLine_eq]
  · rw [without_parameters, declaration_signature]

/-- A string with a blank line, a definition of a runtime function, and a second
definition of one name. -/
theorem declarations_match_definitions_shadowed :
    let program : Program :=
      [{ name := ⟨"main", 1⟩
         body := [{ callee := ⟨"print", 2⟩, args := [.string "\n\n\t"] }] },
        { name := ⟨"print", 3⟩, params := [⟨"a", 3⟩] },
        { name := ⟨"main", 4⟩, params := [⟨"Value* _x, ", 4⟩, ⟨"_x", 4⟩] }]
    ∃ code, functions 0 program = .ok code ∧
      (Text.split '\n' code.declarations).length = 3 ∧
      (Text.blocks code.definitions).length = 3 ∧
      (Text.split '\n' code.declarations)[2]? =
        some "Value* _main(Value*, Value*);".toList := by
  intro program
  have hatoms : program.atoms =
      [.name "main", .name "print", .string "\n\n\t", .name "print", .name "a",
        .name "main", .name "Value* _x, ", .name "_x"] := rfl
  have hne : program ≠ [] := List.cons_ne_nil _ _
  obtain ⟨code, hcode⟩ : ∃ code, functions 0 program = .ok code := ⟨_, rfl⟩
  obtain ⟨hdeclarations, hdefinitions, hmatch⟩ :=
    declarations_match_definitions hne (by simp [hatoms, Atom.Lacks])
      (by simp [hatoms, Atom.Lacks]) hcode
  obtain ⟨line, block, params, hline, -, -, hshape, htypes⟩ := hmatch 2 _ rfl
  refine ⟨code, hcode, hdeclarations, hdefinitions, ?_⟩
  rw [hline, hshape, htypes]
  rfl

end Code

end Lowering
