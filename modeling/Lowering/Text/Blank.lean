import Lowering.Text.Lines

/-!
# Blank characters

The characters with the Unicode property White_Space.  Zero-width characters are
not among them, nor are the separators U+001C to U+001F.
-/

namespace Lowering.Text

/-- The blank characters as closed ranges, in order. -/
def blankRanges : List (Nat × Nat) :=
  [(0x09, 0x0d), (0x20, 0x20), (0x85, 0x85), (0xa0, 0xa0), (0x1680, 0x1680),
    (0x2000, 0x200a), (0x2028, 0x2029), (0x202f, 0x202f), (0x205f, 0x205f),
    (0x3000, 0x3000)]

def isBlank (c : Char) : Bool :=
  blankRanges.any fun (first, last) => first ≤ c.toNat && c.toNat ≤ last

/-- The text from its first character that is not blank. -/
def skipBlanks (text : Text) : Text :=
  text.dropWhile isBlank

/-- What follows a given beginning; `none` for a text that does not begin so. -/
def after? (beginning text : Text) : Option Text :=
  if beginning.isPrefixOf text then some (text.drop beginning.length) else none

end Lowering.Text
