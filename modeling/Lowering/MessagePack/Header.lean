import Lowering.MessagePack.Value

/-!
# MessagePack headers

Every value starts with a header: a marker byte and, for some markers, a number
after it.  The header says what the value is; for strings, arrays, maps and
extensions it gives only the size, and the content follows.

Reading takes every form of a size.  Writing takes the shortest.
-/

namespace Lowering.MessagePack

/-- Takes something from the front of the bytes and gives it with the bytes
behind it. -/
abbrev Reader (α : Type) := Bytes → Option (α × Bytes)

namespace Reader

/-- One byte. -/
def byte : Reader UInt8
  | [] => none
  | byte :: rest => some (byte, rest)

/-- As many things as asked for, one after the other. -/
def many {α : Type} (item : Reader α) : Nat → Reader (List α)
  | 0, bytes => some ([], bytes)
  | count + 1, bytes => do
      let (first, rest) ← item bytes
      let (others, rest) ← many item count rest
      some (first :: others, rest)

/-- The next bytes, as many as asked for. -/
def bytes (count : Nat) : Reader Bytes :=
  many byte count

/-- A number of so many bytes. -/
def number (width : Nat) (input : Bytes) : Option (Nat × Bytes) := do
  let (digits, rest) ← bytes width input
  some (digits.toNat, rest)

/-- Two things, one after the other. -/
def pair {α : Type} (item : Reader α) (input : Bytes) :
    Option ((α × α) × Bytes) := do
  let (first, rest) ← item input
  let (second, rest) ← item rest
  some ((first, second), rest)

end Reader

inductive Header where
  | nil
  | bool (flag : Bool)
  | unsigned (form : Unsigned) (number : Nat)
  | signed (form : Signed) (number : Int)
  | float32 (bits : Nat)
  | float64 (bits : Nat)
  | str (size : Nat)
  | bin (size : Nat)
  | ext (kind : UInt8) (size : Nat)
  | array (size : Nat)
  | map (size : Nat)

/-- The signed number of a two's complement pattern that is so many bytes
wide. -/
def twosComplement (width : Nat) (pattern : Nat) : Int :=
  if 2 * pattern < Bytes.capacity width then pattern
  else (pattern : Int) - Bytes.capacity width

/-- The two's complement pattern, so many bytes wide, of a signed number. -/
def patternOf (width : Nat) (number : Int) : Nat :=
  (number % Bytes.capacity width).toNat

namespace Header

/-- A header made from the number after its marker. -/
def readNumbered (width : Nat) (make : Nat → Header) (rest : Bytes) :
    Option (Header × Bytes) := do
  let (n, rest) ← Reader.number width rest
  some (make n, rest)

/-- The kind byte of an extension of known size. -/
def readKind (size : Nat) (rest : Bytes) : Option (Header × Bytes) := do
  let (kind, rest) ← Reader.byte rest
  some (.ext kind size, rest)

/-- The size of an extension, and then its kind byte. -/
def readExtension (width : Nat) (rest : Bytes) : Option (Header × Bytes) := do
  let (size, rest) ← Reader.number width rest
  readKind size rest

/-- What the markers from `0xc0` to `0xdf` stand for; `0xc1` is never used. -/
def readMarked (marker : UInt8) (rest : Bytes) : Option (Header × Bytes) :=
  match marker with
  | 0xc0 => some (.nil, rest)
  | 0xc2 => some (.bool false, rest)
  | 0xc3 => some (.bool true, rest)
  | 0xc4 => readNumbered 1 .bin rest
  | 0xc5 => readNumbered 2 .bin rest
  | 0xc6 => readNumbered 4 .bin rest
  | 0xc7 => readExtension 1 rest
  | 0xc8 => readExtension 2 rest
  | 0xc9 => readExtension 4 rest
  | 0xca => readNumbered 4 .float32 rest
  | 0xcb => readNumbered 8 .float64 rest
  | 0xcc => readNumbered 1 (.unsigned .u8) rest
  | 0xcd => readNumbered 2 (.unsigned .u16) rest
  | 0xce => readNumbered 4 (.unsigned .u32) rest
  | 0xcf => readNumbered 8 (.unsigned .u64) rest
  | 0xd0 => readNumbered 1 (fun n => .signed .i8 (twosComplement 1 n)) rest
  | 0xd1 => readNumbered 2 (fun n => .signed .i16 (twosComplement 2 n)) rest
  | 0xd2 => readNumbered 4 (fun n => .signed .i32 (twosComplement 4 n)) rest
  | 0xd3 => readNumbered 8 (fun n => .signed .i64 (twosComplement 8 n)) rest
  | 0xd4 => readKind 1 rest
  | 0xd5 => readKind 2 rest
  | 0xd6 => readKind 4 rest
  | 0xd7 => readKind 8 rest
  | 0xd8 => readKind 16 rest
  | 0xd9 => readNumbered 1 .str rest
  | 0xda => readNumbered 2 .str rest
  | 0xdb => readNumbered 4 .str rest
  | 0xdc => readNumbered 2 .array rest
  | 0xdd => readNumbered 4 .array rest
  | 0xde => readNumbered 2 .map rest
  | 0xdf => readNumbered 4 .map rest
  | _ => none

def read : Reader Header
  | [] => none
  | byte :: rest =>
      let marker := byte.toNat
      if marker < 0x80 then some (.unsigned .fix marker, rest)
      else if marker < 0x90 then some (.map (marker - 0x80), rest)
      else if marker < 0xa0 then some (.array (marker - 0x90), rest)
      else if marker < 0xc0 then some (.str (marker - 0xa0), rest)
      else if marker < 0xe0 then readMarked byte rest
      else some (.signed .fix (twosComplement 1 marker), rest)

/-- How a size is written: in the marker itself below a limit, else in one, two
or four bytes after a marker.  Some sizes have no form of one byte. -/
structure SizeForms where
  limit : Nat
  base : UInt8
  marker8 : Option UInt8
  marker16 : UInt8
  marker32 : UInt8

namespace SizeForms

def ofStr : SizeForms := ⟨32, 0xa0, some 0xd9, 0xda, 0xdb⟩

def ofBin : SizeForms := ⟨0, 0, some 0xc4, 0xc5, 0xc6⟩

def ofExt : SizeForms := ⟨0, 0, some 0xc7, 0xc8, 0xc9⟩

def ofArray : SizeForms := ⟨16, 0x90, none, 0xdc, 0xdd⟩

def ofMap : SizeForms := ⟨16, 0x80, none, 0xde, 0xdf⟩

/-- The shortest form of a size.  Sizes are words of 32 bits, so that a larger
one is written modulo `2 ^ 32`. -/
def write (forms : SizeForms) (size : Nat) : Bytes :=
  let size := size % 0x100000000
  if size < forms.limit then [forms.base + UInt8.ofNat size]
  else
    match forms.marker8.filter fun _ => size < 0x100 with
    | some marker => marker :: Bytes.ofNat 1 size
    | none =>
        if size < 0x10000 then forms.marker16 :: Bytes.ofNat 2 size
        else forms.marker32 :: Bytes.ofNat 4 size

/-- Of a size only its remainder reaches the header. -/
theorem write_mod (forms : SizeForms) (size : Nat) :
    forms.write (size % 0x100000000) = forms.write size := by
  simp only [write, Nat.mod_mod]

theorem write_ne_nil (forms : SizeForms) (size : Nat) :
    forms.write size ≠ [] := by
  unfold write
  dsimp only
  repeat' split
  all_goals exact List.cons_ne_nil _ _

end SizeForms

def write : Header → Bytes
  | .nil => [0xc0]
  | .bool false => [0xc2]
  | .bool true => [0xc3]
  | .unsigned .fix n => [UInt8.ofNat n]
  | .unsigned .u8 n => 0xcc :: Bytes.ofNat 1 n
  | .unsigned .u16 n => 0xcd :: Bytes.ofNat 2 n
  | .unsigned .u32 n => 0xce :: Bytes.ofNat 4 n
  | .unsigned .u64 n => 0xcf :: Bytes.ofNat 8 n
  | .signed .fix i => Bytes.ofNat 1 (patternOf 1 i)
  | .signed .i8 i => 0xd0 :: Bytes.ofNat 1 (patternOf 1 i)
  | .signed .i16 i => 0xd1 :: Bytes.ofNat 2 (patternOf 2 i)
  | .signed .i32 i => 0xd2 :: Bytes.ofNat 4 (patternOf 4 i)
  | .signed .i64 i => 0xd3 :: Bytes.ofNat 8 (patternOf 8 i)
  | .float32 bits => 0xca :: Bytes.ofNat 4 bits
  | .float64 bits => 0xcb :: Bytes.ofNat 8 bits
  | .str size => SizeForms.ofStr.write size
  | .bin size => SizeForms.ofBin.write size
  | .ext kind 1 => [0xd4, kind]
  | .ext kind 2 => [0xd5, kind]
  | .ext kind 4 => [0xd6, kind]
  | .ext kind 8 => [0xd7, kind]
  | .ext kind 16 => [0xd8, kind]
  | .ext kind size => SizeForms.ofExt.write size ++ [kind]
  | .array size => SizeForms.ofArray.write size
  | .map size => SizeForms.ofMap.write size

end Header

end Lowering.MessagePack
