import Lowering.MessagePack.Header

/-!
# Reading and writing MessagePack values

A value is its header followed by its content.  Reading takes one value from the
front of the bytes and leaves the rest alone.  It is given the number of levels
that arrays, maps and extensions may still nest, which bounds the recursion; a
size in a header is never trusted further than there are bytes, because each
item takes at least one.
-/

namespace Lowering.MessagePack.Value

/-- Reads one value, given how to read the values inside it; `none` means that
no level may open. -/
def readWith (inner : Option (Reader Value)) (bytes : Bytes) :
    Option (Value × Bytes) := do
  let (header, rest) ← Header.read bytes
  match header, inner with
  | .nil, _ => some (.nil, rest)
  | .bool flag, _ => some (.bool flag, rest)
  | .unsigned form n, _ => some (.unsigned form n, rest)
  | .signed form i, _ => some (.signed form i, rest)
  | .float32 bits, _ => some (.float32 bits, rest)
  | .float64 bits, _ => some (.float64 bits, rest)
  | .str size, _ => do
      let (content, rest) ← Reader.bytes size rest
      some (.str content, rest)
  | .bin size, _ => do
      let (content, rest) ← Reader.bytes size rest
      some (.bin content, rest)
  | .ext kind size, some _ => do
      let (content, rest) ← Reader.bytes size rest
      some (.ext kind content, rest)
  | .array size, some item => do
      let (items, rest) ← Reader.many item size rest
      some (.array items, rest)
  | .map size, some item => do
      let (entries, rest) ← Reader.many (Reader.pair item) size rest
      some (.map entries, rest)
  | _, none => none

/-- Reads one value whose arrays, maps and extensions nest at most `levels`
deep. -/
def read : Nat → Reader Value
  | 0 => readWith none
  | levels + 1 => readWith (some (read levels))

mutual

def write : Value → Bytes
  | .nil => Header.nil.write
  | .bool flag => (Header.bool flag).write
  | .unsigned form n => (Header.unsigned form n).write
  | .signed form i => (Header.signed form i).write
  | .float32 bits => (Header.float32 bits).write
  | .float64 bits => (Header.float64 bits).write
  | .str content => (Header.str content.length).write ++ content
  | .bin content => (Header.bin content.length).write ++ content
  | .ext kind content => (Header.ext kind content.length).write ++ content
  | .array items => (Header.array items.length).write ++ writeItems items
  | .map entries => (Header.map entries.length).write ++ writeEntries entries

def writeItems : List Value → Bytes
  | [] => []
  | item :: items => item.write ++ writeItems items

def writeEntries : List (Value × Value) → Bytes
  | [] => []
  | (key, value) :: entries =>
      key.write ++ (value.write ++ writeEntries entries)

end

end Lowering.MessagePack.Value
