import Lowering.Proofs.Code.Scope
import Lowering.Proofs.Code.Tokens

/-!
# Names and the words of the target

An underscore in front keeps the names of a program apart from each other and
from the names of the runtime, none of which begins with one.  With the reserved
words it is not so simple.  Ten of them begin with an underscore, and a name
that is such a word without it is written as this word.

All of this concerns the names as they stand in generated code, and for this two
more things have to be known: that a name stands there as a word of its own
(`Delimited`), and that the expansion of tabs leaves it alone, which is so for
names that are identifiers.

## Main results

* `mangle_mem_iff` — the names that are written as one of certain words.
* `identifiers_reserved_iff` — every name of a program as it is written, and
  when this is a reserved word.
* `identifiers_can_be_reserved` — a program with names that are written so.
-/

namespace Lowering

/-- The name that an atom is. -/
def Atom.name? : Atom → Option String
  | .name text => some text
  | _ => none

/-- The names in a program, wherever they occur: functions, their parameters,
and at any depth of a body the names that are mentioned and the functions
called. -/
def Program.names (program : Program) : List String :=
  program.atoms.filterMap Atom.name?

namespace Code

/-! ## Words -/

/-- The reserved words of the target. -/
def reservedWords : List String :=
  ["auto", "break", "case", "char", "const", "continue", "default", "do",
    "double", "else", "enum", "extern", "float", "for", "goto", "if", "inline",
    "int", "long", "register", "restrict", "return", "short", "signed",
    "sizeof", "static", "struct", "switch", "typedef", "union", "unsigned",
    "void", "volatile", "while", "_Alignas", "_Alignof", "_Atomic", "_Bool",
    "_Complex", "_Generic", "_Imaginary", "_Noreturn", "_Static_assert",
    "_Thread_local"]

/-- The names that are written as reserved words. -/
def clashingNames : List String :=
  ["Alignas", "Alignof", "Atomic", "Bool", "Complex", "Generic", "Imaginary",
    "Noreturn", "Static_assert", "Thread_local"]

/-- A letter or an underscore, and then letters, digits and underscores. -/
def isIdentifier : Text → Bool
  | [] => false
  | c :: rest => (c.isAlpha || c = '_') && rest.all isNameChar

theorem all_isNameChar_of_isIdentifier {text : Text}
    (h : isIdentifier text = true) : text.all isNameChar = true := by
  cases text with
  | nil => cases h
  | cons c rest =>
      simp only [isIdentifier, Bool.and_eq_true, Bool.or_eq_true] at h
      have hfirst : isNameChar c = true := by
        rcases h.1 with hc | hc <;> simp [isNameChar, Char.isAlphanum, hc]
      rw [List.all_cons, hfirst, h.2]
      rfl

theorem isIdentifier_mangle {name : String}
    (h : isIdentifier name.toList = true) :
    isIdentifier (mangle name) = true := by
  rw [mangle, isIdentifier, all_isNameChar_of_isIdentifier h]
  rfl

theorem tab_not_mem_of_isIdentifier {text : Text}
    (h : isIdentifier text = true) : '\t' ∉ text := by
  intro hmem
  have hchar := List.all_eq_true.1 (all_isNameChar_of_isIdentifier h) _ hmem
  exact absurd hchar (by decide)

/-- The name that is written as this word. -/
def unmangle? (word : String) : Option String :=
  match word.toList with
  | '_' :: rest => some (String.ofList rest)
  | _ => none

theorem unmangle?_eq_some_iff {word name : String} :
    unmangle? word = some name ↔ word.toList = mangle name := by
  constructor
  · intro h
    unfold unmangle? at h
    split at h
    · rename_i rest hword
      obtain rfl := Option.some.inj h
      rw [hword, mangle, String.toList_ofList]
    · cases h
  · intro h
    rw [unmangle?, h]
    exact congrArg some String.ofList_toList

theorem mangle_mem_iff {words : List String} {name : String} :
    mangle name ∈ words.map String.toList ↔ name ∈ words.filterMap unmangle? := by
  simp only [List.mem_map, List.mem_filterMap, unmangle?_eq_some_iff]

theorem mangle_mem_reservedWords_iff {name : String} :
    mangle name ∈ reservedWords.map String.toList ↔ name ∈ clashingNames := by
  have hclashing : reservedWords.filterMap unmangle? = clashingNames := by
    decide
  rw [mangle_mem_iff, hclashing]

theorem mangle_not_mem_runtimeNames (name : String) :
    mangle name ∉ runtimeNames.map String.toList := by
  have hnone : runtimeNames.filterMap unmangle? = [] := by decide
  rw [mangle_mem_iff, hnone]
  exact List.not_mem_nil

/-! ## Names as they are written -/

/--
In the code of an accepted program whose names are identifiers, every name
stands as a word of its own, an underscore and the name: in the declarations the
names of the functions, in the definitions all names of the program, in order.
Such a word is an identifier again and never a name of the runtime, and
different names are different words.  It is a reserved word for ten names and no
others.
-/
theorem identifiers_reserved_iff {indent : Nat} {program : Program}
    {code : Functions} (h : functions indent program = .ok code)
    (hnames : ∀ name ∈ program.names, isIdentifier name.toList = true) :
    (∃ tokens : List Token,
      code.declarations = tokens.flatMap Token.text ∧
      tokens.filterMap Token.atom? =
        program.map (fun d => Atom.name d.name.text) ∧
      Delimited Token.text tokens) ∧
    (∃ tokens : List Token,
      code.definitions =
        tokens.flatMap (fun token => expandTabs indent token.text) ∧
      tokens.filterMap Token.atom? = program.atoms ∧
      Delimited (fun token => expandTabs indent token.text) tokens) ∧
    ∀ name ∈ program.names,
      written indent name = mangle name ∧
      isIdentifier (mangle name) = true ∧
      (mangle name ∈ reservedWords.map String.toList ↔ name ∈ clashingNames) ∧
      mangle name ∉ runtimeNames.map String.toList ∧
      ∀ other ∈ program.names,
        written indent name = written indent other → name = other := by
  obtain ⟨hdefinitions, hdeclarations⟩ := (functions_eq_ok_iff.1 h).2
  refine ⟨?_, ?_, ?_⟩
  · obtain ⟨tokens, htext, hatoms, hapart⟩ := tokenised_declarations program
    exact ⟨tokens, hdeclarations.trans htext.symm, hatoms,
      hapart.delimited fun _ htoken => htoken.isMark_text⟩
  · obtain ⟨tokens, htext, hatoms, hapart⟩ := tokenised_definitions program
    refine ⟨tokens, ?_, hatoms, hapart.delimited fun _ htoken =>
      isMark_expandTabs htoken.isMark_text indent⟩
    -- Expansion goes character by character, so it can be done token by token.
    have hprinted := printDefinitions_eq_expandTabs indent program
    rw [← htext, expandTabs, List.flatMap_assoc] at hprinted
    exact hdefinitions.trans hprinted
  · intro name hname
    have hidentifier := hnames name hname
    have htab := tab_not_mem_of_isIdentifier hidentifier
    refine ⟨written_eq_mangle indent htab, isIdentifier_mangle hidentifier,
      mangle_mem_reservedWords_iff, mangle_not_mem_runtimeNames name, ?_⟩
    intro other hother heq
    have htab' := tab_not_mem_of_isIdentifier (hnames other hother)
    exact (written_inj indent htab htab').1 heq

/-- Names that are reserved words, or names of the runtime, without the
underscore. -/
theorem identifiers_reserved_iff_keywords :
    let d : Definition :=
      { name := ⟨"Value", 1⟩
        params := [⟨"int", 1⟩, ⟨"_Bool", 1⟩]
        body := [{
          callee := ⟨"print", 2⟩
          args := [.array [.name ⟨"int", 2⟩, .call ⟨"null", 2⟩ [], .int "7"]] }] }
    ∃ code, functions 2 [d] = .ok code ∧
      (∃ tokens : List Token,
        code.definitions =
          tokens.flatMap (fun token => expandTabs 2 token.text) ∧
        tokens.filterMap Token.atom? = Program.atoms [d]) ∧
      mangle "int" ∉ reservedWords.map String.toList ∧
      mangle "_Bool" ∉ reservedWords.map String.toList ∧
      mangle "Value" ∉ runtimeNames.map String.toList := by
  intro d
  obtain ⟨code, hcode⟩ : ∃ code, functions 2 [d] = .ok code := ⟨_, rfl⟩
  have hnames : Program.names [d] =
      ["Value", "int", "_Bool", "print", "int", "null"] := rfl
  obtain ⟨-, ⟨tokens, htext, hatoms, -⟩, hwords⟩ :=
    identifiers_reserved_iff hcode (by rw [hnames]; decide)
  rw [hnames] at hwords
  obtain ⟨-, -, hint, -⟩ := hwords "int" (by decide)
  obtain ⟨-, -, hbool, -⟩ := hwords "_Bool" (by decide)
  obtain ⟨-, -, -, hvalue, -⟩ := hwords "Value" (by decide)
  exact ⟨code, hcode, ⟨tokens, htext, hatoms⟩,
    fun hmem => absurd (hint.1 hmem) (by decide),
    fun hmem => absurd (hbool.1 hmem) (by decide), hvalue⟩

/-- A function, a parameter and a call of the function, all written as reserved
words. -/
theorem identifiers_can_be_reserved :
    let d : Definition :=
      { name := ⟨"Bool", 1⟩
        params := [⟨"Complex", 1⟩]
        body := [{ callee := ⟨"Bool", 2⟩, args := [.name ⟨"Complex", 2⟩] }] }
    (∀ name ∈ Program.names [d], isIdentifier name.toList = true) ∧
    functions 4 [d] = .ok
      { declarations := "Value* _Bool(Value*);".toList
        definitions := ("Value* _Bool(Value* _Complex)\n\x7b\n".toList ++
          "    return _Bool(_Complex);\n\x7d".toList) } ∧
    "_Bool" ∈ reservedWords ∧ "_Complex" ∈ reservedWords := by
  intro d
  have hnames : Program.names [d] = ["Bool", "Complex", "Bool", "Complex"] := rfl
  refine ⟨?_, by decide +kernel, by decide, by decide⟩
  rw [hnames]
  decide

end Code

end Lowering
