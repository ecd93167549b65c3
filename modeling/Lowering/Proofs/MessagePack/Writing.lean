import Lowering.Proofs.MessagePack.Serialisation

/-!
# What is written is a serialisation

Writing picks one spelling for each header, the shortest.  It is a spelling as
long as the size has one at all, that is, below `2 ^ 32`.  So a value whose
sizes stay below this limit is written as one of its serialisations.

Only strings, numbers, arrays and maps are ever written, and only these are
treated here.

## Main results

* `Header.SizeForms.spells_write` — the form chosen for a size spells it.
* `Header.Spells.size_lt` — no header spells a size of `2 ^ 32` or more.
* `Value.isWritten_array`, `Value.isWritten_map` — arrays and maps of values
  that are written as serialisations are so themselves.
-/

namespace Lowering.MessagePack

namespace Header

/-! ## Sizes -/

/-- How much content the header announces. -/
def size : Header → Nat
  | .str size => size
  | .bin size => size
  | .ext _ size => size
  | .array size => size
  | .map size => size
  | _ => 0

private theorem size_numbered_lt :
    ∀ form ∈ numberedForms, ∀ n, n < 256 ^ form.2.1 →
      (form.2.2 n).size < 2 ^ 32 := by
  simp only [numberedForms, List.forall_mem_cons, List.not_mem_nil,
    false_imp_iff, implies_true, and_true, size]
  and_intros <;> intro n hn <;> omega

theorem Spells.size_lt {header : Header} {used : Bytes}
    (h : header.Spells used) : header.size < 2 ^ 32 := by
  cases h with
  | nil => simp [size]
  | off => simp [size]
  | on => simp [size]
  | positive => simp [size]
  | negative => simp [size]
  | shortMap hn =>
      simp only [size]
      omega
  | shortArray hn =>
      simp only [size]
      omega
  | shortStr hn =>
      simp only [size]
      omega
  | numbered hform hn => exact size_numbered_lt _ hform _ hn
  | fixedExtension hform =>
      have hsize : ∀ form ∈ fixedExtensions, form.2 < 2 ^ 32 := by decide
      exact hsize _ hform
  | sizedExtension hform hsize =>
      have hwidth : ∀ form ∈ sizedExtensions, 256 ^ form.2 ≤ 2 ^ 32 := by decide
      exact Nat.lt_of_lt_of_le hsize (hwidth _ hform)

/-- The form chosen for a size spells it, given that every form on its own
does: the short one below its limit, and those behind the three markers. -/
theorem SizeForms.spells_write {forms : SizeForms} {make : Nat → Header}
    (hshort : ∀ n, n < forms.limit →
      (make n).Spells [UInt8.ofNat (forms.base.toNat + n)])
    (h8 : ∀ marker, forms.marker8 = some marker →
      (marker, 1, make) ∈ numberedForms)
    (h16 : (forms.marker16, 2, make) ∈ numberedForms)
    (h32 : (forms.marker32, 4, make) ∈ numberedForms)
    {n : Nat} (hn : n < 2 ^ 32) : (make n).Spells (forms.write n) := by
  have hword : n % 0x100000000 = n := Nat.mod_eq_of_lt hn
  simp only [SizeForms.write, hword]
  by_cases hlimit : n < forms.limit
  · have hbase : UInt8.ofNat (forms.base.toNat + n) =
        forms.base + UInt8.ofNat n := by
      rw [UInt8.ofNat_add, UInt8.ofNat_toNat]
    rw [if_pos hlimit, ← hbase]
    exact hshort n hlimit
  · rw [if_neg hlimit]
    split
    · rename_i marker hmarker
      obtain ⟨hmarker, hsmall⟩ := Option.filter_eq_some_iff.mp hmarker
      have hsmall : n < 0x100 := by simpa using hsmall
      exact .numbered (h8 marker hmarker) (by omega)
    · by_cases hmiddle : n < 0x10000
      · rw [if_pos hmiddle]
        exact .numbered h16 (by omega)
      · rw [if_neg hmiddle]
        exact .numbered h32 (by omega)

theorem spells_write_str {n : Nat} (hn : n < 2 ^ 32) :
    (Header.str n).Spells (Header.str n).write := by
  refine SizeForms.spells_write ?_ ?_ ?_ ?_ hn
  · intro n hlimit
    exact .shortStr hlimit
  · simp [SizeForms.ofStr, numberedForms]
  · simp [SizeForms.ofStr, numberedForms]
  · simp [SizeForms.ofStr, numberedForms]

theorem spells_write_array {n : Nat} (hn : n < 2 ^ 32) :
    (Header.array n).Spells (Header.array n).write := by
  refine SizeForms.spells_write ?_ ?_ ?_ ?_ hn
  · intro n hlimit
    exact .shortArray hlimit
  · simp [SizeForms.ofArray]
  · simp [SizeForms.ofArray, numberedForms]
  · simp [SizeForms.ofArray, numberedForms]

theorem spells_write_map {n : Nat} (hn : n < 2 ^ 32) :
    (Header.map n).Spells (Header.map n).write := by
  refine SizeForms.spells_write ?_ ?_ ?_ ?_ hn
  · intro n hlimit
    exact .shortMap hlimit
  · simp [SizeForms.ofMap]
  · simp [SizeForms.ofMap, numberedForms]
  · simp [SizeForms.ofMap, numberedForms]

end Header

namespace Value

/-! ## Values -/

/-- What is written for the value is one of its serialisations. -/
def IsWritten (v : Value) : Prop := v.Serialises v.write

theorem isWritten_str {content : Bytes} (h : content.length < 2 ^ 32) :
    (Value.str content).IsWritten :=
  .str (Header.spells_write_str h)

theorem isWritten_ofNat {n : Nat} (hn : n < 2 ^ 64) :
    (Value.ofNat n).IsWritten := by
  unfold Value.ofNat
  by_cases h7 : n < 0x80
  · rw [if_pos h7]
    exact .unsigned (.positive h7)
  rw [if_neg h7]
  by_cases h8 : n < 0x100
  · rw [if_pos h8]
    have hform : (0xcc, 1, Header.unsigned .u8) ∈ Header.numberedForms := by
      simp [Header.numberedForms]
    exact .unsigned (.numbered hform (by omega))
  rw [if_neg h8]
  by_cases h16 : n < 0x10000
  · rw [if_pos h16]
    have hform : (0xcd, 2, Header.unsigned .u16) ∈ Header.numberedForms := by
      simp [Header.numberedForms]
    exact .unsigned (.numbered hform (by omega))
  rw [if_neg h16]
  by_cases h32 : n < 0x100000000
  · rw [if_pos h32]
    have hform : (0xce, 4, Header.unsigned .u32) ∈ Header.numberedForms := by
      simp [Header.numberedForms]
    exact .unsigned (.numbered hform (by omega))
  · rw [if_neg h32]
    have hform : (0xcf, 8, Header.unsigned .u64) ∈ Header.numberedForms := by
      simp [Header.numberedForms]
    exact .unsigned (.numbered hform (by omega))

theorem isWritten_array {items : List Value} (hlength : items.length < 2 ^ 32)
    (hitems : ∀ item ∈ items, item.IsWritten) :
    (Value.array items).IsWritten := by
  refine .array (Header.spells_write_array hlength) ?_
  clear hlength
  induction items with
  | nil => exact .nil
  | cons item items ih =>
      have hitem : item.IsWritten := hitems item (by simp)
      have hothers := ih fun other hother => hitems other (by simp [hother])
      exact .cons hitem hothers

theorem isWritten_map {entries : List (Value × Value)}
    (hlength : entries.length < 2 ^ 32)
    (hentries : ∀ entry ∈ entries, entry.1.IsWritten ∧ entry.2.IsWritten) :
    (Value.map entries).IsWritten := by
  refine .map (Header.spells_write_map hlength) ?_
  clear hlength
  induction entries with
  | nil => exact .nil
  | cons entry entries ih =>
      obtain ⟨hkey, hvalue⟩ := hentries entry (by simp)
      have hothers := ih fun other hother => hentries other (by simp [hother])
      exact .cons hkey hvalue hothers

end Value

end Lowering.MessagePack
