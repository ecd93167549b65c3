import Lowering.Text.Lines

/-!
# Unsigned decimal numbers

A number as it is typed: one or more digits, with a plus sign in front or none.
Leading zeros do not matter.
-/

namespace Lowering.Text

/-- The number that decimal digits spell. -/
def decimalValue (digits : Text) : Nat :=
  digits.foldl (fun n c => 10 * n + (c.toNat - '0'.toNat)) 0

/-- The text behind a plus sign, or all of it. -/
def dropPlus : Text → Text
  | '+' :: rest => rest
  | text => text

/-- Reads a number that is below the bound. -/
def unsigned? (bound : Nat) (text : Text) : Option Nat :=
  let digits := dropPlus text
  if digits ≠ [] ∧ digits.all Char.isDigit ∧ decimalValue digits < bound then
    some (decimalValue digits)
  else none

end Lowering.Text
