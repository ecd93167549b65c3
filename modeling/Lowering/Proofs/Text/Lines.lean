import Mathlib.Data.List.Flatten
import Lowering.Text.Lines

/-!
# The lines of a composed text

A text is put together from others with separators in between, and cut at the
same separators.  Cutting undoes the composition: where two texts meet at a
separator, the pieces are those of the one and then those of the other, so no
piece is ever made of parts of both.

One case is special.  Joining no pieces at all gives the empty text, and this is
cut into one piece, an empty one.

## Main results

* `split_append_sep` — the pieces of two texts with a separator between them.
* `split_join_eq_flatMap` — the pieces of any number of texts.
* `split_join_eq_orBlank` — joined pieces are cut into the same pieces, or into
  an empty one if there were none.
* `blocks_join` — texts without empty lines are the blocks between the blank
  lines that separate them.
-/

namespace Lowering.Text

theorem split_append_sep (sep : Char) (first second : Text) :
    split sep (first ++ sep :: second) =
      split sep first ++ split sep second := by
  induction first with
  | nil => exact split_sep sep second
  | cons c first ih =>
      by_cases hc : c = sep
      · subst hc
        rw [List.cons_append, split_sep, split_sep, ih, List.cons_append]
      · -- The character goes to a first piece that is the same on both sides.
        obtain ⟨piece, rest, hfirst, hcons⟩ := split_cons hc first
        obtain ⟨piece', rest', hboth, hcons'⟩ :=
          split_cons hc (first ++ sep :: second)
        rw [ih, hfirst, List.cons_append] at hboth
        obtain ⟨rfl, rfl⟩ := List.cons.inj hboth
        rw [List.cons_append, hcons', hcons, List.cons_append]

theorem split_join_eq_flatMap (sep : Char) {texts : List Text}
    (h : texts ≠ []) :
    split sep (join [sep] texts) = texts.flatMap (split sep) := by
  fun_induction join [sep] texts with
  | case1 => exact absurd rfl h
  | case2 text => simp
  | case3 text next rest ih =>
      rw [List.flatMap_cons, List.append_assoc, List.singleton_append,
        split_append_sep, ih (List.cons_ne_nil _ _)]

/-- A text is determined by its pieces. -/
theorem split_inj {sep : Char} {first second : Text} :
    split sep first = split sep second ↔ first = second := by
  constructor
  · intro h
    rw [← join_split sep first, h, join_split]
  · intro h
    rw [h]

/-! ## No pieces -/

/-- The pieces of a text that was joined from these: there is at least one. -/
def orBlank (pieces : List Text) : List Text :=
  if pieces = [] then [[]] else pieces

theorem split_join_eq_orBlank {sep : Char} {pieces : List Text}
    (h : ∀ piece ∈ pieces, sep ∉ piece) :
    split sep (join [sep] pieces) = orBlank pieces := by
  unfold orBlank
  by_cases hnil : pieces = []
  · rw [if_pos hnil, hnil]
    rfl
  · rw [if_neg hnil]
    exact split_join pieces hnil h

theorem orBlank_of_ne_nil {pieces : List Text} (h : pieces ≠ []) :
    orBlank pieces = pieces := if_neg h

theorem sublist_orBlank (pieces : List Text) :
    pieces.Sublist (orBlank pieces) := by
  unfold orBlank
  split
  · rename_i hnil
    rw [hnil]
    exact List.nil_sublist _
  · exact List.Sublist.refl _

section Items

variable {α : Type} {items : List α} {pieces : α → List Text}

theorem flatMap_sublist_flatMap_orBlank :
    (items.flatMap pieces).Sublist
      (items.flatMap fun item => orBlank (pieces item)) :=
  List.Sublist.flatMap_right items fun item _ => sublist_orBlank (pieces item)

/-- Each item without pieces adds a blank, so that the two lists differ as soon
as there is one. -/
theorem flatMap_eq_flatMap_orBlank_iff :
    items.flatMap pieces = items.flatMap (fun item => orBlank (pieces item)) ↔
      ∀ item ∈ items, pieces item ≠ [] := by
  induction items with
  | nil => simp
  | cons item items ih =>
      rw [List.flatMap_cons, List.flatMap_cons, List.forall_mem_cons]
      by_cases hnil : pieces item = []
      · have hlonger : (items.flatMap pieces).length ≤
            (items.flatMap fun item => orBlank (pieces item)).length :=
          flatMap_sublist_flatMap_orBlank.length_le
        constructor
        · intro h
          have hsame := congrArg List.length h
          have hblank : orBlank (pieces item) = [[]] := if_pos hnil
          rw [hblank, hnil, List.nil_append, List.singleton_append,
            List.length_cons] at hsame
          omega
        · intro h
          exact absurd hnil h.1
      · rw [orBlank_of_ne_nil hnil, List.append_right_inj]
        exact ih.trans ⟨fun h => ⟨hnil, h⟩, And.right⟩

end Items

/-- With two separators in between, there is an empty piece between those of the
texts. -/
theorem mem_split_join_pair {sep : Char} {texts : List Text} {piece : Text}
    (h : piece ∈ split sep (join [sep, sep] texts)) :
    piece = [] ∨ ∃ text ∈ texts, piece ∈ split sep text := by
  fun_induction join [sep, sep] texts with
  | case1 => exact .inl (by simpa using h)
  | case2 text => exact .inr ⟨text, List.mem_singleton_self _, h⟩
  | case3 text next rest ih =>
      have hpieces :
          split sep (text ++ [sep, sep] ++ join [sep, sep] (next :: rest)) =
            split sep text ++
              [] :: split sep (join [sep, sep] (next :: rest)) := by
        rw [List.append_assoc, List.cons_append, split_append_sep,
          List.singleton_append, split_sep]
      rw [hpieces, List.mem_append, List.mem_cons] at h
      rcases h with h | h | h
      · exact .inr ⟨text, List.mem_cons_self, h⟩
      · exact .inl h
      · rcases ih h with h | ⟨other, hother, h⟩
        · exact .inl h
        · exact .inr ⟨other, List.mem_cons_of_mem _ hother, h⟩

/-! ## Blocks -/

/-- The pieces between blank lines, that is, between two newlines in a row.
They are looked for from the left, and the search goes on behind both. -/
def blocks : Text → List Text
  | [] => [[]]
  | '\n' :: '\n' :: rest => [] :: blocks rest
  | c :: rest => (blocks rest).modifyHead (c :: ·)

theorem blocks_blank (rest : Text) :
    blocks ('\n' :: '\n' :: rest) = [] :: blocks rest := by
  rw [blocks]

/-- Only a newline in front of another one ends a block. -/
theorem blocks_cons {c : Char} {rest : Text}
    (h : c = '\n' → rest.head? ≠ some '\n') :
    blocks (c :: rest) = (blocks rest).modifyHead (c :: ·) := by
  rw [blocks]
  intro tail hc hrest
  rw [hrest] at h
  exact h hc rfl

theorem blocks_append_of_not_mem {piece : Text} (h : '\n' ∉ piece)
    (text : Text) :
    blocks (piece ++ text) = (blocks text).modifyHead (piece ++ ·) := by
  induction piece with
  | nil => exact (congrFun List.modifyHead_id _).symm
  | cons c piece ih =>
      simp only [List.mem_cons, not_or] at h
      have hc : c = '\n' → (piece ++ text).head? ≠ some '\n' :=
        fun hc => absurd hc.symm h.1
      rw [List.cons_append, blocks_cons hc, ih h.2, List.modifyHead_modifyHead]
      rfl

/-- Lines that are not empty stay together. -/
theorem blocks_lines_append {lines : List Text}
    (h : ∀ line ∈ lines, line ≠ [] ∧ '\n' ∉ line) (text : Text) :
    blocks (lines.flatMap ('\n' :: ·) ++ text) =
      (blocks text).modifyHead (lines.flatMap ('\n' :: ·) ++ ·) := by
  induction lines with
  | nil => exact (congrFun List.modifyHead_id _).symm
  | cons line lines ih =>
      rw [List.forall_mem_cons] at h
      obtain ⟨⟨hne, hline⟩, hlines⟩ := h
      -- The newline in front of a line is not followed by another one.
      have hhead : '\n' = '\n' →
          (line ++ (lines.flatMap ('\n' :: ·) ++ text)).head? ≠ some '\n' := by
        obtain ⟨c, rest, rfl⟩ := List.exists_cons_of_ne_nil hne
        simp only [List.mem_cons, not_or] at hline
        simpa using Ne.symm hline.1
      rw [List.flatMap_cons, List.cons_append, List.cons_append,
        List.append_assoc, blocks_cons hhead, blocks_append_of_not_mem hline,
        ih hlines, List.modifyHead_modifyHead, List.modifyHead_modifyHead]
      simp [Function.comp_def]

/-- A text without an empty line belongs to one block. -/
theorem blocks_append {text : Text}
    (h : ∀ line ∈ split '\n' text, line ≠ []) (after : Text) :
    blocks (text ++ after) = (blocks after).modifyHead (text ++ ·) := by
  obtain ⟨first, rest, hsplit⟩ :=
    List.exists_cons_of_ne_nil (split_ne_nil '\n' text)
  have htext : text = first ++ rest.flatMap ('\n' :: ·) := by
    rw [← join_split '\n' text, hsplit, join_cons]
    rfl
  have hfirst : '\n' ∉ first := by
    have hmem : first ∈ split '\n' text := by simp [hsplit]
    exact not_mem_of_mem_split hmem
  have hrest : ∀ line ∈ rest, line ≠ [] ∧ '\n' ∉ line := by
    intro line hline
    have hmem : line ∈ split '\n' text := by simp [hsplit, hline]
    exact ⟨h line hmem, not_mem_of_mem_split hmem⟩
  rw [htext, List.append_assoc, blocks_append_of_not_mem hfirst,
    blocks_lines_append hrest, List.modifyHead_modifyHead]
  simp [Function.comp_def]

theorem blocks_join {texts : List Text} (hne : texts ≠ [])
    (h : ∀ text ∈ texts, ∀ line ∈ split '\n' text, line ≠ []) :
    blocks (join ['\n', '\n'] texts) = texts := by
  fun_induction join ['\n', '\n'] texts with
  | case1 => exact absurd rfl hne
  | case2 text =>
      have hblocks := blocks_append (h text (List.mem_singleton_self _)) []
      simpa [blocks] using hblocks
  | case3 text next rest ih =>
      rw [List.forall_mem_cons] at h
      rw [List.append_assoc, List.cons_append, List.singleton_append,
        blocks_append h.1, blocks_blank, ih (List.cons_ne_nil _ _) h.2]
      simp

end Lowering.Text
