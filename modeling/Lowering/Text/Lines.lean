/-!
# Text as characters and lines

Text that is scanned, cut or laid out is a list of characters; names and
messages stay `String`.

## Main results

* `join_split` — cutting a text at a separator and joining the pieces gives the
  text back.
* `split_join` — pieces without the separator survive joining and cutting.
-/

namespace Lowering

abbrev Text := List Char

namespace Text

/-- The pieces between separators: one more than there are separators, so never
none. -/
def split (sep : Char) (text : Text) : List Text :=
  text.foldr (fun c pieces =>
    if c = sep then [] :: pieces
    else match pieces with
      | [] => [[c]]
      | piece :: rest => (c :: piece) :: rest) [[]]

/-- Pieces with a separator text between neighbours. -/
def join (sep : Text) : List Text → Text
  | [] => []
  | [piece] => piece
  | piece :: next :: rest => piece ++ sep ++ join sep (next :: rest)

@[simp] theorem split_nil (sep : Char) : split sep [] = [[]] := rfl

theorem split_ne_nil (sep : Char) (text : Text) : split sep text ≠ [] := by
  cases text with
  | nil => simp
  | cons c text =>
      simp only [split, List.foldr_cons]
      split
      · simp
      · split <;> simp

/-- A separator in front starts a new, empty piece. -/
theorem split_sep (sep : Char) (text : Text) :
    split sep (sep :: text) = [] :: split sep text := by
  simp [split]

/-- Any other character in front goes to the first piece. -/
theorem split_cons {sep c : Char} (h : c ≠ sep) (text : Text) :
    ∃ piece rest, split sep text = piece :: rest ∧
      split sep (c :: text) = (c :: piece) :: rest := by
  cases hs : split sep text with
  | nil => exact absurd hs (split_ne_nil sep text)
  | cons piece rest =>
      refine ⟨piece, rest, rfl, ?_⟩
      simp only [split, List.foldr_cons] at hs ⊢
      rw [hs]
      simp [h]

/-- No piece holds a separator. -/
theorem not_mem_of_mem_split {sep : Char} {text piece : Text}
    (h : piece ∈ split sep text) : sep ∉ piece := by
  induction text generalizing piece with
  | nil =>
      obtain rfl : piece = [] := by simpa using h
      simp
  | cons c text ih =>
      by_cases hc : c = sep
      · subst hc
        rw [split_sep, List.mem_cons] at h
        rcases h with rfl | h
        · simp
        · exact ih h
      · obtain ⟨first, rest, hs, hcons⟩ := split_cons hc text
        rw [hcons, List.mem_cons] at h
        rcases h with rfl | h
        · have hfirst : sep ∉ first := ih (by simp [hs])
          simp [hfirst, Ne.symm hc]
        · exact ih (by simp [hs, h])

/-- Every piece but the first has a separator in front. -/
theorem join_cons (sep piece : Text) (rest : List Text) :
    join sep (piece :: rest) = piece ++ rest.flatMap (sep ++ ·) := by
  induction rest generalizing piece with
  | nil => simp [join]
  | cons next rest ih => simp [join, ih]

theorem isPrefix_join_append (sep : Text) (pieces more : List Text) :
    join sep pieces <+: join sep (pieces ++ more) := by
  cases pieces with
  | nil => exact List.nil_prefix
  | cons piece rest =>
      rw [List.cons_append, join_cons, join_cons, List.flatMap_append,
        ← List.append_assoc]
      exact List.prefix_append _ _

theorem join_split (sep : Char) (text : Text) :
    join [sep] (split sep text) = text := by
  induction text with
  | nil => rfl
  | cons c text ih =>
      by_cases h : c = sep
      · subst h
        rw [split_sep]
        cases hs : split c text with
        | nil => exact absurd hs (split_ne_nil c text)
        | cons piece rest => rw [hs] at ih; simp [join, ih]
      · obtain ⟨piece, rest, hs, hc⟩ := split_cons h text
        rw [hs] at ih
        rw [hc]
        cases rest with
        | nil => simp_all [join]
        | cons next rest => simp_all [join]

theorem split_append {sep : Char} {piece : Text} (h : sep ∉ piece)
    (text : Text) :
    split sep (piece ++ sep :: text) = piece :: split sep text := by
  induction piece with
  | nil => exact split_sep sep text
  | cons c piece ih =>
      simp only [List.mem_cons, not_or] at h
      obtain ⟨first, rest, hs, hc⟩ :=
        split_cons (Ne.symm h.1) (piece ++ sep :: text)
      rw [ih h.2] at hs
      obtain ⟨rfl, rfl⟩ := List.cons.inj hs
      simpa using hc

theorem split_of_not_mem {sep : Char} {piece : Text} (h : sep ∉ piece) :
    split sep piece = [piece] := by
  induction piece with
  | nil => rfl
  | cons c piece ih =>
      simp only [List.mem_cons, not_or] at h
      obtain ⟨first, rest, hs, hc⟩ := split_cons (Ne.symm h.1) piece
      rw [ih h.2] at hs
      obtain ⟨rfl, rfl⟩ := List.cons.inj hs
      exact hc

theorem split_join {sep : Char} (pieces : List Text) (hne : pieces ≠ [])
    (h : ∀ piece ∈ pieces, sep ∉ piece) :
    split sep (join [sep] pieces) = pieces := by
  induction pieces with
  | nil => exact absurd rfl hne
  | cons piece rest ih =>
      cases rest with
      | nil => simpa [join] using split_of_not_mem (h piece (by simp))
      | cons next rest =>
          rw [join, List.append_assoc, List.singleton_append,
            split_append (h piece (by simp)),
            ih (by simp) fun p hp => h p (by simp [hp])]

end Text

end Lowering
