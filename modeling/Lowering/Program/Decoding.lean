import Lowering.Error
import Lowering.MessagePack.Record
import Lowering.Program.Encoding

/-!
# Programs from MessagePack

Reading takes more than writing produces: records by position or by key, kinds
and fields by name or by number, and defaults for a line, for arguments and for
a body.  Bytes behind the program do not matter.
-/

namespace Lowering

open MessagePack (Place Value)

/-- How deep arrays, maps and extensions may nest in the bytes of a program. -/
def maxNesting : Nat := 1023

/-- A line number; the default is 0. -/
def lineOfValue? : Option Value → Option UInt32
  | none => some 0
  | some value => do
      let number ← value.int?
      if 0 ≤ number ∧ number < UInt32.size then some (UInt32.ofNat number.toNat)
      else none

/-- The items of a list; the default is no items. -/
def itemsOrNone? (place : Place) : Option Value → Option (List Value)
  | none => some []
  | some value => value.items? place

namespace Ident

def ofFields? : List (Option Value) → Option Ident
  | [some text, line] => do
      some { text := ← text.text?, line := ← lineOfValue? line }
  | _ => none

def ofValue? (place : Place) (value : Value) : Option Ident := do
  ofFields? (← value.fields? place fieldNames)

end Ident

namespace Expr

/-- A kind is given by its label, or by its number in the order of
`Kind.all`. -/
def Kind.ofValue? (place : Place) : Value → Option Kind
  | .unsigned form n => if place.takes form then Kind.all[n]? else none
  | value => do
      let content ← value.content?
      Kind.all.find? fun kind => Utf8.encode kind.label == content

def isTypeKey (key : Value) : Bool :=
  key.content? == some (Utf8.encode "type")

/-- Separates the tag from the fields: the first item of an array, the one entry
`type` of a map. -/
def untag? : Value → Option (Value × Value)
  | .array (tag :: items) => some (tag, .array items)
  | .map entries =>
      match entries.partition fun entry => isTypeKey entry.1 with
      | ([(_, tag)], fields) => some (tag, .map fields)
      | _ => none
  | _ => none

/-- Reads an expression in which arrays and maps nest less than `levels`
deep. -/
def ofValueWithin : Nat → Place → Value → Option Expr
  | 0, _, _ => none
  | levels + 1, place, value => do
      let (tag, record) ← untag? value
      let kind ← Kind.ofValue? place tag
      let fields ← record.fields? .inside kind.fieldNames
      match kind, fields with
      | .int, [some digits] => do some (.int (← digits.text?))
      | .float, [some digits] => do some (.float (← digits.text?))
      | .string, [some content] => do some (.string (← content.text?))
      | .name, fields => do some (.name (← Ident.ofFields? fields))
      | .array, [some values] => do
          let items ← values.items? .inside
          some (.array (← items.mapM (ofValueWithin levels .inside)))
      | .branch, [some condition, some truthy, some falsy] => do
          let condition ← ofValueWithin levels .inside condition
          let truthy ← ofValueWithin levels .inside truthy
          let falsy ← ofValueWithin levels .inside falsy
          some (.branch condition truthy falsy)
      | .call, [some callee, args] => do
          let callee ← Ident.ofValue? .inside callee
          let items ← itemsOrNone? .inside args
          some (.call callee (← items.mapM (ofValueWithin levels .inside)))
      | _, _ => none

/-- Reads an expression.  Each of its levels opens an array or a map, so the
height is enough. -/
def ofValue? (place : Place) (value : Value) : Option Expr :=
  ofValueWithin value.height place value

end Expr

namespace Call

def ofFields? : List (Option Value) → Option Call
  | [some callee, args] => do
      let callee ← Ident.ofValue? .outside callee
      let items ← itemsOrNone? .outside args
      some { callee, args := ← items.mapM (Expr.ofValue? .outside) }
  | _ => none

def ofValue? (value : Value) : Option Call := do
  ofFields? (← value.fields? .outside fieldNames)

end Call

namespace Definition

def ofFields? : List (Option Value) → Option Definition
  | [some name, params, body] => do
      let name ← Ident.ofValue? .outside name
      let params ← itemsOrNone? .outside params
      let body ← itemsOrNone? .outside body
      some {
        name
        params := ← params.mapM (Ident.ofValue? .outside)
        body := ← body.mapM Call.ofValue? }
  | _ => none

def ofValue? (value : Value) : Option Definition := do
  ofFields? (← value.fields? .outside fieldNames)

end Definition

namespace Program

def ofValue? (value : Value) : Option Program := do
  (← value.items? .outside).mapM Definition.ofValue?

/-- Reads the program that the bytes start with. -/
def ofBytes? (bytes : Bytes) : Option Program := do
  let (value, _) ← Value.read maxNesting bytes
  ofValue? value

def ofBytes (bytes : Bytes) : Except Error Program :=
  match ofBytes? bytes with
  | some program => .ok program
  | none => .error { fault := .serialization "the bytes are not a program" }

end Program

end Lowering
