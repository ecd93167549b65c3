import Lowering.Text.Lines

/-!
# String literals

What stands between the quotes of a literal.  Quotes, backslashes and control
characters are escaped; all other characters stand for themselves.
-/

namespace Lowering.Code.StringLiteral

/-- The digit of a number below eight. -/
def octalDigit (n : Nat) : Char :=
  Char.ofNat ('0'.toNat + n % 8)

/-- Three octal digits: a reader takes no fourth, so what follows cannot join
them. -/
def octal (n : Nat) : Text :=
  [octalDigit (n / 64), octalDigit (n / 8), octalDigit n]

/-- The control characters of ASCII. -/
def isControl (c : Char) : Bool :=
  c.toNat < 0x20 || c.toNat = 0x7f

def escapeChar (c : Char) : Text :=
  match c with
  | '"' => ['\\', '"']
  | '\\' => ['\\', '\\']
  | '\n' => ['\\', 'n']
  | '\r' => ['\\', 'r']
  | '\t' => ['\\', 't']
  | '\x00' => ['\\', '0']
  | c => if isControl c then '\\' :: octal c.toNat else [c]

def escape (content : Text) : Text :=
  content.flatMap escapeChar

/-- The content between quotes. -/
def quote (content : Text) : Text :=
  '"' :: escape content ++ ['"']

end Lowering.Code.StringLiteral
