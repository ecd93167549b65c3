import Lowering.Include
import Lowering.Proofs.Text.Lines

/-!
# What filtering keeps

Whether a line is redundant depends on this line alone, so filtering a text that
is put together from others keeps the lines that filtering each of them keeps.
The two differ in one respect.  A text of which nothing is kept leaves an empty
text, and where this stands between others it is an empty line.

## Main results

* `keptLines_join` — the lines kept of texts one below the other.
* `split_filter` — the lines of a filtered text.
* `filter_eq_self_iff` — filtering changes exactly the texts with a redundant
  line.
* `isRedundant_eq_false` — only a line that begins with a hash, after blanks,
  can be redundant.
-/

namespace Lowering.Include

variable {provided : List Text}

/-- The lines that stay. -/
def keptLines (provided : List Text) (text : Text) : List Text :=
  (Text.split '\n' text).filter fun line => !isRedundant provided line

/-- Nothing of the text stays, not even an empty line. -/
def Vanishes (provided : List Text) (text : Text) : Prop :=
  ∀ line ∈ Text.split '\n' text, isRedundant provided line = true

instance (provided : List Text) (text : Text) :
    Decidable (Vanishes provided text) :=
  inferInstanceAs (Decidable (∀ line ∈ Text.split '\n' text, _))

theorem keptLines_eq_nil_iff {text : Text} :
    keptLines provided text = [] ↔ Vanishes provided text := by
  simp [keptLines, Vanishes, List.filter_eq_nil_iff]

theorem isRedundant_of_mem_keptLines {text line : Text}
    (h : line ∈ keptLines provided text) :
    isRedundant provided line = false := by
  simpa using (List.mem_filter.1 h).2

theorem keptLines_join (provided : List Text) {texts : List Text}
    (h : texts ≠ []) :
    keptLines provided (Text.join ['\n'] texts) =
      texts.flatMap (keptLines provided) := by
  rw [keptLines, Text.split_join_eq_flatMap '\n' h, List.filter_flatMap]
  rfl

theorem split_filter (provided : List Text) (text : Text) :
    Text.split '\n' (filter provided text) =
      Text.orBlank (keptLines provided text) := by
  apply Text.split_join_eq_orBlank
  intro line hline
  exact Text.not_mem_of_mem_split (List.mem_filter.1 hline).1

/-! ## Lines that are no directives -/

/-- A directive begins with a hash, so a line that begins otherwise is kept. -/
theorem isRedundant_eq_false {line : Text}
    (h : (Text.skipBlanks line).head? ≠ some '#') :
    isRedundant provided line = false := by
  have hafter : Text.after? ['#'] (Text.skipBlanks line) = none := by
    rw [Text.after?, if_neg]
    cases hline : Text.skipBlanks line with
    | nil => simp
    | cons c rest =>
        rw [hline, List.head?_cons, ne_eq, Option.some.injEq] at h
        simp [Ne.symm h]
  rw [isRedundant, parse?, hafter]
  rfl

theorem isRedundant_nil : isRedundant provided [] = false :=
  isRedundant_eq_false (by decide)

theorem isRedundant_cons {c : Char} {rest : Text}
    (hblank : Text.isBlank c = false) (hhash : c ≠ '#') :
    isRedundant provided (c :: rest) = false := by
  apply isRedundant_eq_false
  simp [Text.skipBlanks, hblank, hhash]

/-- Indentation makes no difference. -/
theorem isRedundant_indented (width : Nat) (line : Text) :
    isRedundant provided (List.replicate width ' ' ++ line) =
      isRedundant provided line := by
  have hskip : Text.skipBlanks (List.replicate width ' ' ++ line) =
      Text.skipBlanks line := by
    have hspace : ∀ c ∈ List.replicate width ' ', Text.isBlank c = true := by
      intro c hc
      rw [List.eq_of_mem_replicate hc]
      decide
    exact List.dropWhile_append_of_pos hspace
  rw [isRedundant, isRedundant, parse?, parse?, hskip]

/-! ## Filtering twice -/

/-- A filtered text has no redundant line, also where nothing was kept. -/
theorem isRedundant_of_mem_filter {text line : Text}
    (h : line ∈ Text.split '\n' (filter provided text)) :
    isRedundant provided line = false := by
  rw [split_filter, Text.orBlank] at h
  split at h
  · rw [List.mem_singleton.1 h]
    exact isRedundant_nil
  · exact isRedundant_of_mem_keptLines h

theorem filter_eq_self_iff {text : Text} :
    filter provided text = text ↔
      ∀ line ∈ Text.split '\n' text, isRedundant provided line = false := by
  constructor
  · intro h line hline
    rw [← h] at hline
    exact isRedundant_of_mem_filter hline
  · intro h
    have hkept : (Text.split '\n' text).filter
        (fun line => !isRedundant provided line) = Text.split '\n' text := by
      rw [List.filter_eq_self]
      intro line hline
      rw [h line hline, Bool.not_false]
    rw [filter, hkept, Text.join_split]

end Lowering.Include
