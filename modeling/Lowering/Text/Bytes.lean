/-!
# Bytes, numbers and text

Bytes are `List UInt8`: lists are what proofs can take apart.  Numbers are
spelled most significant byte first, and text is UTF-8.

## Main results

* `Bytes.toNat_ofNat` — a number is read back from its bytes, up to the width
  they hold.
* `Bytes.ofNat_toNat` — bytes are read back from their number.
* `Utf8.decode?_encode` — text is read back from its bytes.
-/

namespace Lowering

abbrev Bytes := List UInt8

namespace Bytes

/-- How many numbers `width` bytes can spell. -/
def capacity : Nat → Nat
  | 0 => 1
  | width + 1 => capacity width * 256

theorem capacity_pos (width : Nat) : 0 < capacity width := by
  induction width with
  | zero => decide
  | succ width ih => exact Nat.mul_pos ih (by decide)

/-- The low `width` bytes of a number, most significant first. -/
def ofNat : Nat → Nat → Bytes
  | 0, _ => []
  | width + 1, n => UInt8.ofNat (n / capacity width) :: ofNat width n

/-- The number that bytes spell, most significant first. -/
def toNat : Bytes → Nat
  | [] => 0
  | byte :: rest => byte.toNat * capacity rest.length + toNat rest

@[simp] theorem length_ofNat (width n : Nat) :
    (ofNat width n).length = width := by
  induction width with
  | zero => rfl
  | succ width ih => simp [ofNat, ih]

theorem toNat_ofNat (width n : Nat) :
    toNat (ofNat width n) = n % capacity width := by
  induction width with
  | zero => simp [ofNat, toNat, capacity, Nat.mod_one]
  | succ width ih =>
      have hbyte : (UInt8.ofNat (n / capacity width)).toNat =
          n / capacity width % 256 := by simp
      rw [ofNat, toNat, length_ofNat, ih, hbyte, capacity, Nat.mod_mul,
        Nat.mul_comm, Nat.add_comm]

theorem toNat_lt (bytes : Bytes) : toNat bytes < capacity bytes.length := by
  induction bytes with
  | nil => simp [toNat, capacity]
  | cons byte rest ih =>
      have hbyte : byte.toNat + 1 ≤ 256 := byte.toNat_lt
      have hscaled := Nat.mul_le_mul_right (capacity rest.length) hbyte
      rw [toNat, List.length_cons, capacity,
        Nat.mul_comm (capacity rest.length)]
      rw [Nat.succ_mul] at hscaled
      omega

/-- Bytes in front of the wanted ones do not reach the low bytes of the sum. -/
theorem ofNat_add_mul (width front n : Nat) :
    ofNat width (front * capacity width + n) = ofNat width n := by
  induction width generalizing front with
  | zero => rfl
  | succ width ih =>
      have hcapacity : front * capacity (width + 1) =
          front * 256 * capacity width := by
        rw [capacity]; ac_rfl
      have hdiv : (front * 256 * capacity width + n) / capacity width =
          n / capacity width + 256 * front := by
        rw [Nat.add_comm, Nat.add_mul_div_right _ _ (capacity_pos width),
          Nat.mul_comm front]
      have hbyte : UInt8.ofNat (n / capacity width + 256 * front) =
          UInt8.ofNat (n / capacity width) :=
        UInt8.toNat_inj.mp (by simp)
      rw [ofNat, ofNat, hcapacity, hdiv, hbyte, ih]

theorem ofNat_toNat (bytes : Bytes) :
    ofNat bytes.length (toNat bytes) = bytes := by
  induction bytes with
  | nil => rfl
  | cons byte rest ih =>
      have hdiv : (byte.toNat * capacity rest.length + toNat rest) /
          capacity rest.length = byte.toNat := by
        rw [Nat.add_comm, Nat.add_mul_div_right _ _ (capacity_pos rest.length),
          Nat.div_eq_of_lt (toNat_lt rest), Nat.zero_add]
      rw [List.length_cons, toNat, ofNat, hdiv, ofNat_add_mul, ih,
        UInt8.ofNat_toNat]

end Bytes

namespace Utf8

/-- The bytes of a text. -/
def encode (text : String) : Bytes :=
  text.toByteArray.data.toList

/-- The text that bytes spell; `none` unless they are valid. -/
def decode? (bytes : Bytes) : Option String :=
  String.fromUTF8? ⟨bytes.toArray⟩

theorem decode?_encode (text : String) : decode? (encode text) = some text := by
  simp [decode?, encode, String.fromUTF8?, text.isValidUTF8, String.fromUTF8]

end Utf8

end Lowering
