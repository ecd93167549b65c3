import Lowering.Proofs.MessagePack.Serialisation

/-!
# The shortest serialisation

Two values are the same tree when they differ in the forms of their integers
only.  `Value.tree` forgets these forms, and a serialisation of a tree is one of
any value with this tree: every size and every integer may be written in any
form that holds it.

Among all of these none is shorter than what is written.  It is enough to look
at one header at a time.  A size or a number in `width` bytes is below
`256 ^ width`, and for each of these bounds there is a branch of the writer that
takes no more bytes.  What the headers save adds up, since contents are the same
and items are written one after the other.

## Main results

* `Header.Spells.length_write_le` — no spelling of a header is shorter than the
  one that is written.
* `Header.Spells.length_write_ofNat_le` — no header that holds a number is
  shorter than its shortest form.
* `Value.Compact.shortest` — a value whose integers are in their shortest form
  is written as a shortest serialisation of its tree.
-/

namespace Lowering.MessagePack

/-! ## Trees -/

/-- What a value says: integers are numbers, in whatever form they came. -/
inductive Tree where
  | nil
  | bool (flag : Bool)
  | int (number : Int)
  | float32 (bits : Nat)
  | float64 (bits : Nat)
  | str (content : Bytes)
  | bin (content : Bytes)
  | ext (kind : UInt8) (content : Bytes)
  | array (items : List Tree)
  | map (entries : List (Tree × Tree))

namespace Value

mutual

/-- Forgets the forms of the integers, and nothing else. -/
def tree : Value → Tree
  | .nil => .nil
  | .bool flag => .bool flag
  | .unsigned _ n => .int n
  | .signed _ i => .int i
  | .float32 bits => .float32 bits
  | .float64 bits => .float64 bits
  | .str content => .str content
  | .bin content => .bin content
  | .ext kind content => .ext kind content
  | .array items => .array (treesOfItems items)
  | .map entries => .map (treesOfEntries entries)

def treesOfItems : List Value → List Tree
  | [] => []
  | item :: items => item.tree :: treesOfItems items

def treesOfEntries : List (Value × Value) → List (Tree × Tree)
  | [] => []
  | (key, value) :: entries =>
      (key.tree, value.tree) :: treesOfEntries entries

end

end Value

/-- The bytes of some value with this tree. -/
def Tree.Serialises (t : Tree) (used : Bytes) : Prop :=
  ∃ v : Value, v.tree = t ∧ v.Serialises used

namespace Value

theorem tree_eq_int_iff {v : Value} {i : Int} :
    v.tree = .int i ↔ v.int? = some i := by
  cases v <;> simp [tree, int?]

theorem tree_eq_str_iff {v : Value} {content : Bytes} :
    v.tree = .str content ↔ v = .str content := by
  cases v <;> simp [tree]

theorem tree_eq_array_iff {v : Value} {trees : List Tree} :
    v.tree = .array trees ↔
      ∃ items, v = .array items ∧ treesOfItems items = trees := by
  cases v <;> simp [tree]

theorem tree_eq_map_iff {v : Value} {trees : List (Tree × Tree)} :
    v.tree = .map trees ↔
      ∃ entries, v = .map entries ∧ treesOfEntries entries = trees := by
  cases v <;> simp [tree]

theorem tree_ofNat (n : Nat) : (Value.ofNat n).tree = .int n := by
  unfold Value.ofNat
  repeat' split
  all_goals rfl

theorem length_treesOfItems (items : List Value) :
    (treesOfItems items).length = items.length := by
  induction items with
  | nil => rfl
  | cons item items ih =>
      rw [treesOfItems, List.length_cons, ih, List.length_cons]

theorem length_treesOfEntries (entries : List (Value × Value)) :
    (treesOfEntries entries).length = entries.length := by
  induction entries with
  | nil => rfl
  | cons entry entries ih =>
      rw [treesOfEntries, List.length_cons, ih, List.length_cons]

end Value

namespace Header

/-! ## Sizes -/

namespace SizeForms

theorem length_write_of_lt {forms : SizeForms} {n : Nat}
    (h : n < forms.limit) : (forms.write n).length = 1 := by
  have hword : n % 0x100000000 < forms.limit :=
    Nat.lt_of_le_of_lt (Nat.mod_le _ _) h
  rw [SizeForms.write, if_pos hword]
  rfl

/-- Where there is a form of `width` bytes, the form chosen for a size that it
can hold is no longer. -/
theorem length_write_le {forms : SizeForms} {width n : Nat}
    (hwidth : width = 1 ∧ forms.marker8.isSome ∨ width = 2 ∨ width = 4)
    (hn : n < 256 ^ width) : (forms.write n).length ≤ width + 1 := by
  unfold SizeForms.write
  have hword : n % 0x100000000 < 256 ^ width :=
    Nat.lt_of_le_of_lt (Nat.mod_le _ _) hn
  generalize n % 0x100000000 = size at hword
  dsimp only
  by_cases hlimit : size < forms.limit
  · rw [if_pos hlimit, List.length_singleton]
    omega
  rw [if_neg hlimit]
  split
  · rw [List.length_cons, Bytes.length_ofNat]
    omega
  · rename_i hnone
    -- The form of one byte was passed over, so it is absent or too small.
    have hwide : width = 2 ∨ width = 4 := by
      rcases hwidth with ⟨rfl, hsome⟩ | hwide
      · obtain ⟨marker, hmarker⟩ := Option.isSome_iff_exists.mp hsome
        have hlarge : 0x100 ≤ size := by simpa [hmarker] using hnone
        omega
      · exact hwide
    rcases hwide with rfl | rfl
    · have hmiddle : size < 0x10000 := by omega
      simp [hmiddle]
    · split <;> simp

end SizeForms

private theorem length_write_numbered_le :
    ∀ form ∈ numberedForms, ∀ n, n < 256 ^ form.2.1 →
      (form.2.2 n).write.length ≤ form.2.1 + 1 := by
  simp only [numberedForms, List.forall_mem_cons, List.not_mem_nil,
    false_imp_iff, implies_true, and_true, write]
  and_intros <;> intro n hn
  -- Sizes of binary strings, then scalars of one form each, then other sizes.
  iterate 3 exact SizeForms.length_write_le (by decide) hn
  iterate 10 simp
  iterate 7 exact SizeForms.length_write_le (by decide) hn

private theorem length_write_fixedExtension (kind : UInt8) :
    ∀ form ∈ fixedExtensions, (Header.ext kind form.2).write.length = 2 := by
  simp only [fixedExtensions, List.forall_mem_cons, List.not_mem_nil,
    false_imp_iff, implies_true, and_true]
  and_intros <;> rfl

private theorem write_ext_of_not_fixed {kind : UInt8} {size : Nat}
    (h : ∀ form ∈ fixedExtensions, form.2 ≠ size) :
    (Header.ext kind size).write = SizeForms.ofExt.write size ++ [kind] := by
  simp only [fixedExtensions, List.forall_mem_cons] at h
  obtain ⟨h1, h2, h4, h8, h16, -⟩ := h
  rw [write] <;> intro hsize <;> omega

private theorem length_write_sizedExtension_le (kind : UInt8) :
    ∀ form ∈ sizedExtensions, ∀ size, size < 256 ^ form.2 →
      (Header.ext kind size).write.length ≤ form.2 + 2 := by
  intro form hform size hsize
  by_cases hfixed : ∃ other ∈ fixedExtensions, other.2 = size
  · obtain ⟨other, hother, rfl⟩ := hfixed
    rw [length_write_fixedExtension kind other hother]
    omega
  · have hwidth : ∀ form ∈ sizedExtensions, form.2 = 1 ∧
        SizeForms.ofExt.marker8.isSome ∨ form.2 = 2 ∨ form.2 = 4 := by decide
    have hforms := SizeForms.length_write_le (hwidth form hform) hsize
    have hnone : ∀ other ∈ fixedExtensions, other.2 ≠ size :=
      fun other hother hsame => hfixed ⟨other, hother, hsame⟩
    rw [write_ext_of_not_fixed hnone, List.length_append,
      List.length_singleton]
    omega

/-- Every header is written in the shortest of its spellings. -/
theorem Spells.length_write_le {header : Header} {used : Bytes}
    (h : header.Spells used) : header.write.length ≤ used.length := by
  cases h with
  | nil => exact Nat.le_refl _
  | off => exact Nat.le_refl _
  | on => exact Nat.le_refl _
  | positive hn => exact Nat.le_refl _
  | negative hlow hhigh => exact Nat.le_refl _
  | shortMap hn => exact Nat.le_of_eq (SizeForms.length_write_of_lt hn)
  | shortArray hn => exact Nat.le_of_eq (SizeForms.length_write_of_lt hn)
  | shortStr hn => exact Nat.le_of_eq (SizeForms.length_write_of_lt hn)
  | numbered hform hn =>
      rw [List.length_cons, Bytes.length_ofNat]
      exact length_write_numbered_le _ hform _ hn
  | fixedExtension hform =>
      exact Nat.le_of_eq (length_write_fixedExtension _ _ hform)
  | sizedExtension hform hsize =>
      rw [List.length_cons, List.length_append, Bytes.length_ofNat]
      exact length_write_sizedExtension_le _ _ hform _ hsize

end Header

/-! ## Numbers -/

namespace Value

theorem length_write_ofNat (n : Nat) :
    (Value.ofNat n).write.length =
      if n < 0x80 then 1
      else if n < 0x100 then 2
      else if n < 0x10000 then 3
      else if n < 0x100000000 then 5
      else 9 := by
  unfold Value.ofNat
  repeat' split
  all_goals simp [write, Header.write]

theorem length_write_ofNat_of_lt {n : Nat} (h : n < 0x80) :
    (Value.ofNat n).write.length = 1 := by
  rw [length_write_ofNat, if_pos h]

/-- A form of `width` bytes that can hold the number is no shorter. -/
theorem length_write_ofNat_le {width n : Nat} (hwidth : width ∈ [1, 2, 4, 8])
    (hn : n < 256 ^ width) : (Value.ofNat n).write.length ≤ width + 1 := by
  simp only [List.mem_cons, List.not_mem_nil, or_false] at hwidth
  rw [length_write_ofNat]
  rcases hwidth with rfl | rfl | rfl | rfl
  all_goals
    repeat' split
    all_goals omega

end Value

theorem twosComplement_le (width pattern : Nat) :
    twosComplement width pattern ≤ pattern := by
  unfold twosComplement
  split <;> omega

namespace Header

/-- The number in the header of an integer. -/
def int? : Header → Option Int
  | .unsigned _ n => some n
  | .signed _ i => some i
  | _ => none

theorem width_mem_of_mem_numberedForms :
    ∀ form ∈ numberedForms, form.2.1 ∈ [1, 2, 4, 8] := by
  simp [numberedForms]

/-- With a sign or without, a number is at most the pattern that spells it. -/
private theorem int_numbered_le :
    ∀ form ∈ numberedForms, ∀ (pattern : Nat) (i : Int),
      (form.2.2 pattern).int? = some i → i ≤ pattern := by
  simp only [numberedForms, List.forall_mem_cons, List.not_mem_nil,
    false_imp_iff, implies_true, and_true]
  and_intros <;> intro pattern i hi
  -- In the order of the list; the first five and the last seven hold no number.
  iterate 5 cases hi
  iterate 4 exact Int.le_of_eq (Option.some.inj hi).symm
  iterate 4 exact Option.some.inj hi ▸ twosComplement_le _ pattern
  iterate 7 cases hi

/-- Whatever header holds a number is as long as its shortest form at least. -/
theorem Spells.length_write_ofNat_le {header : Header} {used : Bytes}
    (h : header.Spells used) {n : Nat} (hint : header.int? = some (n : Int)) :
    (Value.ofNat n).write.length ≤ used.length := by
  cases h with
  | positive hn =>
      obtain rfl : _ = n := Int.ofNat.inj (Option.some.inj hint)
      exact Nat.le_of_eq (Value.length_write_ofNat_of_lt hn)
  | @negative pattern hlow hhigh =>
      -- These markers are for numbers below zero.
      have hnumber : twosComplement 1 pattern = n := Option.some.inj hint
      have hcapacity : Bytes.capacity 1 = 256 := rfl
      rw [twosComplement, if_neg (by omega)] at hnumber
      omega
  | numbered hform hpattern =>
      have hle := int_numbered_le _ hform _ _ hint
      have hwidth := width_mem_of_mem_numberedForms _ hform
      rw [List.length_cons, Bytes.length_ofNat]
      exact Value.length_write_ofNat_le hwidth (by omega)
  | _ => simp [int?] at hint

end Header

namespace Value

theorem length_write_ofNat_le_of_serialises {v : Value} {used : Bytes}
    (h : v.Serialises used) {n : Nat} (hint : v.int? = some (n : Int)) :
    (Value.ofNat n).write.length ≤ used.length := by
  cases h with
  | unsigned hheader => exact hheader.length_write_ofNat_le hint
  | signed hheader => exact hheader.length_write_ofNat_le hint
  | _ => simp [int?] at hint

/-! ## Values -/

/-- No serialisation of the value's tree is shorter than what is written for
the value. -/
def Shortest (v : Value) : Prop :=
  ∀ used, v.tree.Serialises used → v.write.length ≤ used.length

theorem shortest_ofNat (n : Nat) : (Value.ofNat n).Shortest := by
  intro used hused
  obtain ⟨v, hsame, hv⟩ := hused
  rw [tree_ofNat, tree_eq_int_iff] at hsame
  exact length_write_ofNat_le_of_serialises hv hsame

theorem shortest_str (content : Bytes) : (Value.str content).Shortest := by
  intro used hused
  obtain ⟨v, hsame, hv⟩ := hused
  obtain rfl := tree_eq_str_iff.mp hsame
  cases hv with
  | str hheader =>
      rw [write, List.length_append, List.length_append]
      exact Nat.add_le_add_right hheader.length_write_le _

/-- Item by item, whatever forms the others are in. -/
theorem length_writeItems_le {items others : List Value} {body : Bytes}
    (hitems : ∀ item ∈ items, item.Shortest)
    (hsame : treesOfItems others = treesOfItems items)
    (hbody : SerialisesItems others body) :
    (writeItems items).length ≤ body.length := by
  induction items generalizing others body with
  | nil => exact Nat.zero_le _
  | cons item items ih =>
      cases hbody with
      | nil => simp [treesOfItems] at hsame
      | cons hother hothers =>
          obtain ⟨hfirst, hrest⟩ := List.cons.inj hsame
          obtain ⟨hitem, hitems⟩ := List.forall_mem_cons.mp hitems
          have hhead := hitem _ ⟨_, hfirst, hother⟩
          have htail := ih hitems hrest hothers
          rw [writeItems, List.length_append, List.length_append]
          exact Nat.add_le_add hhead htail

theorem length_writeEntries_le {entries others : List (Value × Value)}
    {body : Bytes} (hkeys : ∀ entry ∈ entries, entry.1.Shortest)
    (hvalues : ∀ entry ∈ entries, entry.2.Shortest)
    (hsame : treesOfEntries others = treesOfEntries entries)
    (hbody : SerialisesEntries others body) :
    (writeEntries entries).length ≤ body.length := by
  induction entries generalizing others body with
  | nil => exact Nat.zero_le _
  | cons entry entries ih =>
      cases hbody with
      | nil => simp [treesOfEntries] at hsame
      | cons hother hother' hothers =>
          obtain ⟨hfirst, hrest⟩ := List.cons.inj hsame
          obtain ⟨hsameKey, hsameValue⟩ := Prod.mk.inj hfirst
          obtain ⟨hkey, hkeys⟩ := List.forall_mem_cons.mp hkeys
          obtain ⟨hvalue, hvalues⟩ := List.forall_mem_cons.mp hvalues
          have hhead := hkey _ ⟨_, hsameKey, hother⟩
          have hmiddle := hvalue _ ⟨_, hsameValue, hother'⟩
          have htail := ih hkeys hvalues hrest hothers
          simp only [writeEntries, List.length_append]
          omega

theorem shortest_array {items : List Value}
    (hitems : ∀ item ∈ items, item.Shortest) :
    (Value.array items).Shortest := by
  intro used hused
  obtain ⟨v, hsame, hv⟩ := hused
  obtain ⟨others, rfl, htrees⟩ := tree_eq_array_iff.mp hsame
  cases hv with
  | array hheader hbody =>
      -- The header is about the other items, which are as many.
      have hlength := congrArg List.length htrees
      rw [length_treesOfItems, length_treesOfItems] at hlength
      rw [hlength] at hheader
      rw [write, List.length_append, List.length_append]
      exact Nat.add_le_add hheader.length_write_le
        (length_writeItems_le hitems htrees hbody)

theorem shortest_map {entries : List (Value × Value)}
    (hkeys : ∀ entry ∈ entries, entry.1.Shortest)
    (hvalues : ∀ entry ∈ entries, entry.2.Shortest) :
    (Value.map entries).Shortest := by
  intro used hused
  obtain ⟨v, hsame, hv⟩ := hused
  obtain ⟨others, rfl, htrees⟩ := tree_eq_map_iff.mp hsame
  cases hv with
  | map hheader hbody =>
      have hlength := congrArg List.length htrees
      rw [length_treesOfEntries, length_treesOfEntries] at hlength
      rw [hlength] at hheader
      rw [write, List.length_append, List.length_append]
      exact Nat.add_le_add hheader.length_write_le
        (length_writeEntries_le hkeys hvalues htrees hbody)

/-- Texts, numbers in their shortest form, and arrays and maps of such. -/
inductive Compact : Value → Prop
  | str {content : Bytes} : Compact (.str content)
  | number {n : Nat} : Compact (.ofNat n)
  | array {items : List Value} :
      (∀ item ∈ items, Compact item) → Compact (.array items)
  | map {entries : List (Value × Value)} :
      (∀ entry ∈ entries, Compact entry.1) →
      (∀ entry ∈ entries, Compact entry.2) → Compact (.map entries)

theorem Compact.shortest {v : Value} (h : v.Compact) : v.Shortest := by
  induction h with
  | @str content => exact shortest_str content
  | @number n => exact shortest_ofNat n
  | array _ ih => exact shortest_array ih
  | map _ _ ihKeys ihValues => exact shortest_map ihKeys ihValues

end Value

end Lowering.MessagePack
