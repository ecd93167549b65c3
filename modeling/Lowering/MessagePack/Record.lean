import Lowering.MessagePack.Codec

/-!
# Records in MessagePack

A record has named fields in a fixed order.  It is written as an array that
gives the fields by position, from the first on, or as a map that gives them by
key, in any order.  A key is a field's name or its position.  Keys of no field
are passed over, and a field may be given only once.

Within an expression fewer forms are taken, see `Place`.
-/

namespace Lowering.MessagePack

/-- Whether something stands outside of all expressions or within one. -/
inductive Place where
  | outside
  | inside
deriving DecidableEq

/-- The forms in which a number may stand for a name: within an expression not
those of two and of four bytes. -/
def Place.takes : Place → Unsigned → Bool
  | .outside, _ => true
  | .inside, form => form = .fix ∨ form = .u8 ∨ form = .u64

/-- What a key means in a record: one of its fields, or nothing. -/
inductive Key where
  | field (position : Nat)
  | unknown
deriving DecidableEq

namespace Value

/-- What a value means as a key.  Strings are compared as bytes, so that they
need not be UTF-8.  Values of other kinds, and numbers in a form that the place
does not take, are no keys at all. -/
def key? (place : Place) (names : List String) : Value → Option Key
  | .unsigned form n =>
      if place.takes form then
        some (if n < names.length then .field n else .unknown)
      else none
  | value => do
      let content ← value.content?
      match names.findIdx? fun name => Utf8.encode name == content with
      | some position => some (.field position)
      | none => some .unknown

/-- The value given for a field, if any; refused when there are several. -/
def pick? (position : Nat) (entries : List (Key × Value)) :
    Option (Option Value) :=
  match entries.filter fun entry => entry.1 = .field position with
  | [] => some none
  | [(_, value)] => some (some value)
  | _ => none

/-- The values of the fields, in the order of the names; a field that is not
given has none. -/
def fields? (place : Place) (names : List String) :
    Value → Option (List (Option Value))
  | .array items =>
      if items.length ≤ names.length then
        some (items.map some
          ++ List.replicate (names.length - items.length) none)
      else none
  | .map entries => do
      let keyed ← entries.mapM fun (key, value) => do
        some (← key.key? place names, value)
      (List.range names.length).mapM fun position => pick? position keyed
  | _ => none

/-- The items of a list.  Outside of expressions a binary string without content
is an empty list. -/
def items? (place : Place) : Value → Option (List Value)
  | .array items => some items
  | .bin [] => if place = .outside then some [] else none
  | _ => none

end Value

end Lowering.MessagePack
