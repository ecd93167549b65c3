import Lowering.Text.Lines

/-!
# Texts that can be read from the left

Items are written one after the other, and the question is whether the texts can
be told apart again.  An item is readable if its text, with anything behind it
that ends it, determines the item and the place where it ends.  What ends an
item depends on its kind: a word ends where no further character of a word
follows, and something in brackets ends by itself.

A list of readable items is readable as well, provided that the text behind the
list looks neither like a separator nor like a further item.

## Main results

* `Spelling.join_inj` — a list with separators determines its items.
* `append_inj_of_stopsAt` — a word ends at the first character of another sort.
-/

namespace Lowering.Text

/-! ## Spellings -/

/-- A way to write things of one kind. -/
structure Spelling (α β : Type) where
  text : α → Text
  /-- Which things are written so that they can be read. -/
  Plain : α → Prop
  /-- What is read off the text. -/
  content : α → β
  /-- What a following text has to be like for the text to end in front of
  it. -/
  Stops : Text → Prop

namespace Spelling

variable {α β : Type} (S : Spelling α β)

/-- The item can be read off the front of a text, which also shows where it
ends. -/
def Readable (a : α) : Prop :=
  ∀ ⦃b : α⦄ ⦃r r' : Text⦄, S.Plain b → S.Stops r → S.Stops r' →
    S.text a ++ r = S.text b ++ r' → S.content a = S.content b ∧ r = r'

/-- A text that ends a list of items: it looks neither like a separator nor like
a further item. -/
structure Closes (sep r : Text) : Prop where
  stops : S.Stops r
  ne_sep : ∀ x, sep ++ x ≠ r
  ne_text : ∀ a x, S.text a ++ x ≠ r

variable {S} {sep r r' : Text}

theorem stops_tail (hsep : ∀ x, S.Stops (sep ++ x)) (hr : S.Stops r)
    (items : List α) :
    S.Stops ((items.map S.text).flatMap (sep ++ ·) ++ r) := by
  cases items with
  | nil => exact hr
  | cons a items =>
      rw [List.map_cons, List.flatMap_cons, List.append_assoc,
        List.append_assoc]
      exact hsep _

/-- Items with a separator in front of each. -/
theorem tail_inj (hsep : ∀ x, S.Stops (sep ++ x)) (hr : S.Closes sep r)
    (hr' : S.Closes sep r') {as bs : List α} (has : ∀ a ∈ as, S.Readable a)
    (hbs : ∀ b ∈ bs, S.Plain b)
    (h : (as.map S.text).flatMap (sep ++ ·) ++ r =
      (bs.map S.text).flatMap (sep ++ ·) ++ r') :
    as.map S.content = bs.map S.content ∧ r = r' := by
  induction as generalizing bs with
  | nil =>
      cases bs with
      | nil => exact ⟨rfl, h⟩
      | cons b bs =>
          simp only [List.map_cons, List.flatMap_cons, List.append_assoc] at h
          exact absurd h.symm (hr.ne_sep _)
  | cons a as ih =>
      cases bs with
      | nil =>
          simp only [List.map_cons, List.flatMap_cons, List.append_assoc] at h
          exact absurd h (hr'.ne_sep _)
      | cons b bs =>
          simp only [List.map_cons, List.flatMap_cons, List.append_assoc] at h
          rw [List.forall_mem_cons] at has hbs
          obtain ⟨hfirst, hrest⟩ := has.1 hbs.1
            (stops_tail hsep hr.stops as) (stops_tail hsep hr'.stops bs)
            (List.append_cancel_left h)
          obtain ⟨hcontents, hr⟩ := ih has.2 hbs.2 hrest
          exact ⟨by rw [List.map_cons, List.map_cons, hfirst, hcontents], hr⟩

/-- Items with a separator between neighbours. -/
theorem join_inj (hsep : ∀ x, S.Stops (sep ++ x)) (hr : S.Closes sep r)
    (hr' : S.Closes sep r') {as bs : List α} (has : ∀ a ∈ as, S.Readable a)
    (hbs : ∀ b ∈ bs, S.Plain b)
    (h : join sep (as.map S.text) ++ r =
      join sep (bs.map S.text) ++ r') :
    as.map S.content = bs.map S.content ∧ r = r' := by
  cases as with
  | nil =>
      cases bs with
      | nil => exact ⟨rfl, h⟩
      | cons b bs =>
          rw [List.map_cons, join_cons, List.append_assoc] at h
          exact absurd h.symm (hr.ne_text b _)
  | cons a as =>
      cases bs with
      | nil =>
          rw [List.map_cons, join_cons, List.append_assoc] at h
          exact absurd h (hr'.ne_text a _)
      | cons b bs =>
          rw [List.map_cons, List.map_cons, join_cons, join_cons,
            List.append_assoc, List.append_assoc] at h
          rw [List.forall_mem_cons] at has hbs
          obtain ⟨hfirst, hrest⟩ := has.1 hbs.1
            (stops_tail hsep hr.stops as) (stops_tail hsep hr'.stops bs) h
          obtain ⟨hcontents, hr⟩ := tail_inj hsep hr hr' has.2 hbs.2 hrest
          exact ⟨by rw [List.map_cons, List.map_cons, hfirst, hcontents], hr⟩

end Spelling

/-! ## Words -/

/-- The text does not go on with such a character. -/
def StopsAt (p : Char → Bool) (r : Text) : Prop :=
  ∀ c ∈ r.head?, p c = false

theorem stopsAt_cons {p : Char → Bool} {c : Char} (h : p c = false) (r : Text) :
    StopsAt p (c :: r) := by
  intro d hd
  obtain rfl : c = d := Option.some.inj hd
  exact h

theorem append_inj_of_stopsAt {p : Char → Bool} {w w' r r' : Text}
    (hw : w.all p = true) (hw' : w'.all p = true)
    (hr : StopsAt p r) (hr' : StopsAt p r') (h : w ++ r = w' ++ r') :
    w = w' ∧ r = r' := by
  have htake : ∀ {w r : Text}, w.all p = true → StopsAt p r →
      (w ++ r).takeWhile p = w := by
    intro w r hw hr
    rw [List.takeWhile_append_of_pos (List.all_eq_true.1 hw)]
    cases r with
    | nil => simp
    | cons c r => simp [hr c rfl]
  obtain rfl : w = w' := by
    rw [← htake hw hr, h, htake hw' hr']
  exact ⟨rfl, List.append_cancel_left h⟩

end Lowering.Text
