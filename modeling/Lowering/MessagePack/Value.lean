import Lowering.Text.Bytes

/-!
# MessagePack values

A value is a tree of scalars, byte strings, arrays and maps.  Integers remember
the form they were written in, because some positions accept only some of the
forms; the sizes of strings, arrays and maps are not kept, since every form of
them means the same.
-/

namespace Lowering.MessagePack

/-- The forms of an integer without a sign: in the marker itself, or in bytes
after it. -/
inductive Unsigned where
  | fix
  | u8
  | u16
  | u32
  | u64
deriving DecidableEq

/-- The forms of an integer with a sign; `fix` holds only the negative ones down
to -32. -/
inductive Signed where
  | fix
  | i8
  | i16
  | i32
  | i64
deriving DecidableEq

inductive Value where
  | nil
  | bool (flag : Bool)
  | unsigned (form : Unsigned) (number : Nat)
  | signed (form : Signed) (number : Int)
  | float32 (bits : Nat)
  | float64 (bits : Nat)
  | str (content : Bytes)
  | bin (content : Bytes)
  | ext (kind : UInt8) (content : Bytes)
  | array (items : List Value)
  | map (entries : List (Value × Value))

namespace Value

mutual

/-- How deep arrays, maps and extensions nest: each of them is one level, also
when empty. -/
def height : Value → Nat
  | .ext _ _ => 1
  | .array items => heightOfItems items + 1
  | .map entries => heightOfEntries entries + 1
  | _ => 0

def heightOfItems : List Value → Nat
  | [] => 0
  | item :: items => max item.height (heightOfItems items)

def heightOfEntries : List (Value × Value) → Nat
  | [] => 0
  | (key, value) :: entries =>
      max (max key.height value.height) (heightOfEntries entries)

end

/-- The shortest form of a number. -/
def ofNat (n : Nat) : Value :=
  if n < 0x80 then .unsigned .fix n
  else if n < 0x100 then .unsigned .u8 n
  else if n < 0x10000 then .unsigned .u16 n
  else if n < 0x100000000 then .unsigned .u32 n
  else .unsigned .u64 n

def ofString (text : String) : Value :=
  .str (Utf8.encode text)

/-- The number that an integer of any form holds. -/
def int? : Value → Option Int
  | .unsigned _ n => some n
  | .signed _ i => some i
  | _ => none

/-- The bytes of a string of either kind. -/
def content? : Value → Option Bytes
  | .str content => some content
  | .bin content => some content
  | _ => none

/-- The text of a string of either kind; none unless it is UTF-8. -/
def text? (value : Value) : Option String :=
  value.content?.bind Utf8.decode?

end Value

end Lowering.MessagePack
