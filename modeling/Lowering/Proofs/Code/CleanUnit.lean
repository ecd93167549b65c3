import Lowering.Proofs.Code.GeneratedLines

/-!
# Units without redundant directives

The fragments are cleaned one by one, before a unit is laid out.  One could as
well lay it out first and clean it as a whole, generated code included.  Both
keep the same lines: the pieces of a unit meet at newlines, so no line is made
of two pieces, and no line of the generated code is a redundant directive.  They
differ where a fragment has nothing to keep, which leaves an empty line if it is
cleaned on its own and no line at all otherwise.

## Main results

* `layout_eq_join` — a unit is its pieces, one below the other.
* `unit_agrees_with_cleaned_layout` — cleaning first and cleaning last compared.
-/

namespace Lowering.Code

open Include (keptLines Vanishes)

/-! ## Pieces -/

/-- What a unit is made of, from newline to newline. -/
inductive Piece where
  | blank
  | fragment (which : Fragment)
  | declarations
  | definitions
deriving DecidableEq

namespace Piece

/-- The pieces of a unit in their order. -/
def all : List Piece :=
  [.blank, .fragment .utilsHeader, .fragment .valueHeader,
    .fragment .utilsSource, .fragment .valueSource, .fragment .builtinsSource,
    .blank, .declarations, .blank, .definitions, .blank, .fragment .entry,
    .blank]

def text (fragments : Fragments) (code : Functions) : Piece → Text
  | .blank => []
  | .fragment which => fragments.text which
  | .declarations => code.declarations
  | .definitions => code.definitions

/-- The lines of a piece that are kept. -/
def kept (fragments : Fragments) (code : Functions) (piece : Piece) :
    List Text :=
  keptLines providedHeaders (piece.text fragments code)

end Piece

theorem layout_eq_join (fragments : Fragments) (code : Functions) :
    layout fragments code =
      Text.join ['\n'] (Piece.all.map (Piece.text fragments code)) := by
  have hnewline : "\n".toList = ['\n'] := rfl
  have hblank : "\n\n".toList = ['\n', '\n'] := rfl
  unfold layout
  simp only [hnewline, hblank, Piece.all, List.map_cons, List.map_nil,
    Piece.text, Fragments.text, Text.join_cons, List.flatMap_cons,
    List.flatMap_nil, List.append_assoc, List.cons_append, List.nil_append,
    List.append_nil]

theorem split_layout (fragments : Fragments) (code : Functions) :
    Text.split '\n' (layout fragments code) =
      Piece.all.flatMap fun piece =>
        Text.split '\n' (piece.text fragments code) := by
  rw [layout_eq_join, Text.split_join_eq_flatMap '\n' (by simp [Piece.all]),
    List.flatMap_map]

/-! ## Cleaning last -/

theorem keptLines_layout (fragments : Fragments) (code : Functions) :
    keptLines providedHeaders (layout fragments code) =
      Piece.all.flatMap (Piece.kept fragments code) := by
  rw [layout_eq_join, Include.keptLines_join _ (by simp [Piece.all]),
    List.flatMap_map]
  rfl

/-- The unit is never empty, so that cleaning it never has to put a blank. -/
theorem split_filter_layout (fragments : Fragments) (code : Functions) :
    Text.split '\n' (Include.filter providedHeaders (layout fragments code)) =
      Piece.all.flatMap (Piece.kept fragments code) := by
  rw [Include.split_filter, keptLines_layout]
  apply Text.orBlank_of_ne_nil
  simp [Piece.all, Piece.kept, Piece.text, keptLines, Include.isRedundant_nil]

/-! ## Cleaning first -/

section Generated

variable {fragments : Fragments} {code : Functions} {program : Program}
  {indent : Nat}

/-- Only fragments can have redundant lines. -/
theorem isRedundant_of_mem_piece
    (hcode : code.ConsistsOf program (printDefinition indent))
    (hlacks : ∀ atom ∈ program.atoms, atom.Lacks '\n') {piece : Piece}
    (hpiece : ¬ ∃ fragment, piece = .fragment fragment) {line : Text}
    (h : line ∈ Text.split '\n' (piece.text fragments code)) :
    Include.isRedundant providedHeaders line = false := by
  cases piece with
  | blank =>
      rw [List.mem_singleton.1 h]
      exact Include.isRedundant_nil
  | fragment which => exact absurd ⟨which, rfl⟩ hpiece
  | declarations => exact isRedundant_of_mem_declarations hcode hlacks h
  | definitions => exact isRedundant_of_mem_definitions hcode hlacks h

/-- Cleaning the fragments cleans every piece. -/
theorem text_cleaned
    (hcode : code.ConsistsOf program (printDefinition indent))
    (hlacks : ∀ atom ∈ program.atoms, atom.Lacks '\n') (piece : Piece) :
    piece.text (cleaned fragments) code =
      Include.filter providedHeaders (piece.text fragments code) := by
  by_cases hpiece : ∃ fragment, piece = .fragment fragment
  · obtain ⟨fragment, rfl⟩ := hpiece
    exact Fragments.text_map _ fragments fragment
  · have hclean : Include.filter providedHeaders (piece.text fragments code) =
        piece.text fragments code :=
      Include.filter_eq_self_iff.2 fun line hline =>
        isRedundant_of_mem_piece hcode hlacks hpiece hline
    rw [hclean]
    cases piece with
    | fragment which => exact absurd ⟨which, rfl⟩ hpiece
    | blank => rfl
    | declarations => rfl
    | definitions => rfl

theorem split_layout_cleaned
    (hcode : code.ConsistsOf program (printDefinition indent))
    (hlacks : ∀ atom ∈ program.atoms, atom.Lacks '\n') :
    Text.split '\n' (layout (cleaned fragments) code) =
      Piece.all.flatMap fun piece =>
        Text.orBlank (piece.kept fragments code) := by
  rw [split_layout]
  congr 1
  funext piece
  rw [text_cleaned hcode hlacks, Include.split_filter]
  rfl

/-- A piece of which nothing is kept is a fragment. -/
theorem kept_eq_nil_iff
    (hcode : code.ConsistsOf program (printDefinition indent))
    (hlacks : ∀ atom ∈ program.atoms, atom.Lacks '\n') {piece : Piece} :
    piece.kept fragments code = [] ↔
      ∃ fragment, piece = .fragment fragment ∧
        Vanishes providedHeaders (fragments.text fragment) := by
  rw [Piece.kept, Include.keptLines_eq_nil_iff]
  constructor
  · intro h
    by_cases hpiece : ∃ fragment, piece = .fragment fragment
    · obtain ⟨fragment, rfl⟩ := hpiece
      exact ⟨fragment, rfl, h⟩
    · obtain ⟨line, hline⟩ := List.exists_mem_of_ne_nil _
        (Text.split_ne_nil '\n' (piece.text fragments code))
      have hkept := isRedundant_of_mem_piece hcode hlacks hpiece hline
      rw [h line hline] at hkept
      exact Bool.noConfusion hkept
  · rintro ⟨fragment, rfl, h⟩
    exact h

end Generated

theorem mem_all_fragment (fragment : Fragment) :
    Piece.fragment fragment ∈ Piece.all := by
  cases fragment <;> decide

/--
A unit is as clean as can be: no line of it is a redundant directive, generated
code included.  Laying out the fragments as they are and cleaning the result
gives the same unit, provided that something is kept of every fragment; a
fragment of which nothing is kept leaves an empty line, which is the only
difference.  All other lines of the fragments stay as they are and in order.
-/
theorem unit_agrees_with_cleaned_layout {fragments : Fragments} {indent : Nat}
    {program : Program} {text : Text}
    (hlacks : ∀ atom ∈ program.atoms, atom.Lacks '\n')
    (h : unit fragments indent program = .ok text) :
    ∃ code, functions indent program = .ok code ∧
      Include.filter providedHeaders text = text ∧
      (∀ line ∈ Text.split '\n' text,
        Include.isRedundant providedHeaders line = false) ∧
      (Include.filter providedHeaders (layout fragments code) = text ↔
        ∀ fragment, ¬ Vanishes providedHeaders (fragments.text fragment)) ∧
      Text.split '\n'
          (Include.filter providedHeaders (layout fragments code)) =
        Piece.all.flatMap (Piece.kept fragments code) ∧
      Text.split '\n' text =
        Piece.all.flatMap (fun piece =>
          Text.orBlank (piece.kept fragments code)) ∧
      (∀ piece, Piece.kept fragments code piece = [] ↔
        ∃ fragment, piece = .fragment fragment ∧
          Vanishes providedHeaders (fragments.text fragment)) ∧
      (Fragment.all.flatMap fun fragment =>
        keptLines providedHeaders (fragments.text fragment)).Sublist
          (Text.split '\n' text) := by
  obtain ⟨code, hfunctions, rfl⟩ := unit_eq_ok_iff.1 h
  have hcode := (functions_eq_ok_iff.1 hfunctions).2
  have hlines : Text.split '\n' (layout (cleaned fragments) code) =
      Piece.all.flatMap (fun piece =>
        Text.orBlank (piece.kept fragments code)) :=
    split_layout_cleaned hcode hlacks
  have hclean : ∀ line ∈ Text.split '\n' (layout (cleaned fragments) code),
      Include.isRedundant providedHeaders line = false := by
    intro line hline
    rw [split_layout, List.mem_flatMap] at hline
    obtain ⟨piece, -, hline⟩ := hline
    rw [text_cleaned hcode hlacks] at hline
    exact Include.isRedundant_of_mem_filter hline
  refine ⟨code, hfunctions, Include.filter_eq_self_iff.2 hclean, hclean, ?_,
    split_filter_layout fragments code, hlines,
    fun piece => kept_eq_nil_iff hcode hlacks, ?_⟩
  · -- Both sides list the same pieces, so they agree unless one is blank.
    rw [← Text.split_inj, split_filter_layout, hlines,
      Text.flatMap_eq_flatMap_orBlank_iff]
    constructor
    · intro hkept fragment hvanishes
      exact hkept _ (mem_all_fragment fragment)
        ((kept_eq_nil_iff hcode hlacks).2 ⟨fragment, rfl, hvanishes⟩)
    · intro hstay piece _ hnil
      obtain ⟨fragment, -, hvanishes⟩ := (kept_eq_nil_iff hcode hlacks).1 hnil
      exact hstay fragment hvanishes
  · -- Among the pieces the fragments keep the order that they have anyway.
    have horder : (Fragment.all.map Piece.fragment).Sublist Piece.all := by
      decide
    have hkept := horder.flatMap (Piece.kept fragments code)
    rw [List.flatMap_map] at hkept
    rw [hlines]
    exact hkept.trans Text.flatMap_sublist_flatMap_orBlank

/-- A string of the program has a line that looks like a directive; one fragment
has nothing but redundant lines, and another one some of them. -/
theorem unit_agrees_with_cleaned_layout_quoting :
    let program : Program :=
      [{ name := ⟨"main", 1⟩
         body := [⟨⟨"print", 2⟩, [.string "\n#include \"utils.h\"\n"]⟩] }]
    let fragments : Fragments :=
      { utilsSource := "#include \"utils.h\"\n # include \"value.h\" //".toList
        valueSource := "#include <math.h>\n#include \"value.h\"\nint x;".toList }
    ∃ code text, functions 4 program = .ok code ∧
      unit fragments 4 program = .ok text ∧
      Include.filter providedHeaders text = text ∧
      Include.filter providedHeaders (layout fragments code) ≠ text ∧
      ["#include <math.h>".toList, "int x;".toList].Sublist
        (Text.split '\n' text) := by
  intro program fragments
  have hlacks : ∀ atom ∈ program.atoms, atom.Lacks '\n' := by
    have hatoms : program.atoms =
        [.name "main", .name "print", .string "\n#include \"utils.h\"\n"] := rfl
    simp [hatoms, Atom.Lacks]
  obtain ⟨text, hunit⟩ : ∃ text, unit fragments 4 program = .ok text := ⟨_, rfl⟩
  obtain ⟨code, hcode, hclean, -, hagrees, -, -, -, hkept⟩ :=
    unit_agrees_with_cleaned_layout hlacks hunit
  refine ⟨code, text, hcode, hunit, hclean, ?_, ?_⟩
  · intro hsame
    exact hagrees.1 hsame .utilsSource (by decide +kernel)
  · refine List.Sublist.trans ?_ hkept
    decide +kernel

end Lowering.Code
