import Lowering.Text.Decimal
import Mathlib.Data.Nat.Digits.Defs

/-!
# Which texts are numbers

A numeral is one or more decimal digits, with a plus sign in front or none.  Its
value is the number that the digits spell in base ten, so leading zeros are
allowed and change nothing.  Reading accepts exactly the numerals below the
bound.

## Main results

* `decimalValue_eq_ofDigits` — digits are read from the left, and mean what they
  mean in base ten.
* `unsigned?_eq_some_iff` — which texts are read, and as which number.
-/

namespace Lowering.Text

/-- The text is a decimal number with this value. -/
inductive Numeral : Text → Nat → Prop
  | plain {digits : Text} (hne : digits ≠ [])
      (hdigits : ∀ c ∈ digits, c.isDigit = true) :
      Numeral digits
        (Nat.ofDigits 10 (digits.reverse.map fun c => c.toNat - '0'.toNat))
  | signed {digits : Text} (hne : digits ≠ [])
      (hdigits : ∀ c ∈ digits, c.isDigit = true) :
      Numeral ('+' :: digits)
        (Nat.ofDigits 10 (digits.reverse.map fun c => c.toNat - '0'.toNat))

theorem decimalValue_eq_ofDigits (digits : Text) :
    decimalValue digits =
      Nat.ofDigits 10 (digits.reverse.map fun c => c.toNat - '0'.toNat) := by
  rw [Nat.ofDigits_eq_foldr, List.foldr_map, List.foldr_reverse, decimalValue]
  simp only [Nat.cast_id, Nat.add_comm]

theorem dropPlus_eq_self {text : Text} (h : text.head? ≠ some '+') :
    dropPlus text = text := by
  unfold dropPlus
  split
  · exact absurd rfl h
  · rfl

/-- A sign is no digit. -/
theorem dropPlus_of_isDigit {digits : Text}
    (h : ∀ c ∈ digits, c.isDigit = true) : dropPlus digits = digits := by
  apply dropPlus_eq_self
  intro hsign
  exact absurd (h '+' (List.mem_of_head? hsign)) (by decide)

/-- Only the digits behind the sign matter. -/
theorem numeral_iff_dropPlus {text : Text} {n : Nat} :
    Numeral text n ↔
      dropPlus text ≠ [] ∧ (dropPlus text).all Char.isDigit = true ∧
        decimalValue (dropPlus text) = n := by
  rw [List.all_eq_true]
  constructor
  · intro h
    cases h with
    | plain hne hdigits =>
        rw [dropPlus_of_isDigit hdigits]
        exact ⟨hne, hdigits, decimalValue_eq_ofDigits _⟩
    | signed hne hdigits => exact ⟨hne, hdigits, decimalValue_eq_ofDigits _⟩
  · rintro ⟨hne, hdigits, rfl⟩
    rw [decimalValue_eq_ofDigits]
    by_cases hsign : text.head? = some '+'
    · obtain ⟨digits, rfl⟩ := List.head?_eq_some_iff.1 hsign
      exact .signed hne hdigits
    · rw [dropPlus_eq_self hsign] at hne hdigits ⊢
      exact .plain hne hdigits

theorem unsigned?_eq_some_iff {bound n : Nat} {text : Text} :
    unsigned? bound text = some n ↔ Numeral text n ∧ n < bound := by
  rw [numeral_iff_dropPlus, unsigned?, Option.ite_none_right_eq_some]
  constructor
  · rintro ⟨⟨hne, hdigits, hbound⟩, heq⟩
    obtain rfl := Option.some.inj heq
    exact ⟨⟨hne, hdigits, rfl⟩, hbound⟩
  · rintro ⟨⟨hne, hdigits, rfl⟩, hbound⟩
    exact ⟨⟨hne, hdigits, hbound⟩, rfl⟩

end Lowering.Text
