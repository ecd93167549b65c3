import Lowering.Text.Blank

/-!
# Include directives

A line is a directive when it reads `#`, `include` and a name between quotes or
angle brackets, with blanks wherever two of these meet and in front.  What
follows the name does not count.

Headers that are already part of a unit need not be included in it, so the lines
that include them locally can be dropped from its parts.
-/

namespace Lowering

inductive Include where
  /-- A local header, named between quotes. -/
  | quoted (name : Text)
  /-- A header of the system, named between angle brackets. -/
  | angled (name : Text)
deriving DecidableEq

namespace Include

/-- What stands before the first closing mark; `none` without one. -/
def delimited? (close : Char) (text : Text) : Option Text :=
  if close ∈ text then some (text.takeWhile (· ≠ close)) else none

/-- The name of a directive with its marks, at the front of a text. -/
def target? : Text → Option Include
  | '"' :: rest => (delimited? '"' rest).map .quoted
  | '<' :: rest => (delimited? '>' rest).map .angled
  | _ => none

/-- The directive that a line begins with. -/
def parse? (line : Text) : Option Include := do
  let rest ← Text.after? ['#'] (Text.skipBlanks line)
  let rest ← Text.after? "include".toList (Text.skipBlanks rest)
  target? (Text.skipBlanks rest)

/-- Whether the line includes, locally, a header that is provided anyway. -/
def isRedundant (provided : List Text) (line : Text) : Bool :=
  match parse? line with
  | some (.quoted name) => provided.contains name
  | _ => false

/-- The text without its redundant lines; all other lines stay as they are. -/
def filter (provided : List Text) (text : Text) : Text :=
  Text.join ['\n']
    ((Text.split '\n' text).filter fun line => !isRedundant provided line)

end Include

end Lowering
