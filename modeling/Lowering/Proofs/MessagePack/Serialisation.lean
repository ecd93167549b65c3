import Lowering.MessagePack.Codec
import Mathlib.Algebra.Group.Nat.Defs

/-!
# What the bytes of a value are

A value has many serialisations, since the sizes of strings, arrays, maps and
extensions may be written wider than they need to be.  `Header.Spells` lists
the ways to write a header, and `Value.Serialises` puts values together from
headers and contents.  Neither mentions a reader.

Reading takes a serialisation from the front of the bytes and finds the value
that it serialises.  The nesting of the value decides whether it is found at
all; the bytes that follow never do.

## Main results

* `Header.read_eq_some_iff` — a header is read exactly from its spellings.
* `Value.Serialises.read_append` — a serialisation, whatever follows it, is read
  as its value, or refused when the value nests too deep.
* `Value.read_eq_some_iff` — reading finds exactly the values of which a
  serialisation comes first and that nest no deeper than allowed.
* `Value.Serialises.append_inj` — a serialisation is told apart from what
  follows it.
-/

namespace Lowering.MessagePack

/-! ## Bytes and numbers -/

theorem capacity_eq_pow (width : Nat) : Bytes.capacity width = 256 ^ width := by
  induction width with
  | zero => rfl
  | succ width ih => rw [Bytes.capacity, ih, Nat.pow_succ]

namespace Reader

theorem bytes_eq_some_iff {count : Nat} {input content rest : Bytes} :
    bytes count input = some (content, rest) ↔
      content.length = count ∧ input = content ++ rest := by
  unfold bytes
  induction count generalizing input content rest with
  | zero =>
      simp only [many, Option.some.injEq, Prod.mk.injEq,
        List.length_eq_zero_iff]
      constructor
      · intro h
        obtain ⟨rfl, rfl⟩ := h
        exact ⟨rfl, rfl⟩
      · intro h
        obtain ⟨rfl, rfl⟩ := h
        exact ⟨rfl, rfl⟩
  | succ count ih =>
      cases input with
      | nil =>
          simp only [many, byte, Option.bind_eq_bind, Option.bind_none,
            reduceCtorEq, false_iff, not_and]
          intro hlength happend
          simp [(List.append_eq_nil_iff.mp happend.symm).1] at hlength
      | cons first input =>
          simp only [many, byte, Option.bind_eq_bind, Option.bind_some,
            Option.bind_eq_some_iff, Prod.exists, Option.some.injEq,
            Prod.mk.injEq, ih]
          constructor
          · intro h
            obtain ⟨content, rest, ⟨rfl, rfl⟩, rfl, rfl⟩ := h
            exact ⟨rfl, rfl⟩
          · intro h
            obtain ⟨hlength, happend⟩ := h
            cases content with
            | nil => simp at hlength
            | cons byte content =>
                obtain ⟨rfl, rfl⟩ := List.cons.inj happend
                exact ⟨content, rest, ⟨by simpa using hlength, rfl⟩, rfl, rfl⟩

theorem number_eq_some_iff {width n : Nat} {input rest : Bytes} :
    number width input = some (n, rest) ↔
      n < 256 ^ width ∧ input = Bytes.ofNat width n ++ rest := by
  simp only [number, Option.bind_eq_bind, Option.bind_eq_some_iff, Prod.exists,
    bytes_eq_some_iff, Option.some.injEq, Prod.mk.injEq]
  constructor
  · intro h
    obtain ⟨digits, rest, ⟨rfl, rfl⟩, rfl, rfl⟩ := h
    rw [← capacity_eq_pow]
    exact ⟨Bytes.toNat_lt digits, by rw [Bytes.ofNat_toNat]⟩
  · intro h
    obtain ⟨hn, rfl⟩ := h
    refine ⟨Bytes.ofNat width n, rest, ⟨by simp, rfl⟩, ?_, rfl⟩
    rw [Bytes.toNat_ofNat, capacity_eq_pow, Nat.mod_eq_of_lt hn]

end Reader

namespace Header

/-! ## Headers -/

/-- The markers with a number behind them: the marker, how many bytes the
number takes, and what it means. -/
def numberedForms : List (UInt8 × Nat × (Nat → Header)) :=
  [(0xc4, 1, .bin), (0xc5, 2, .bin), (0xc6, 4, .bin),
    (0xca, 4, .float32), (0xcb, 8, .float64),
    (0xcc, 1, .unsigned .u8), (0xcd, 2, .unsigned .u16),
    (0xce, 4, .unsigned .u32), (0xcf, 8, .unsigned .u64),
    (0xd0, 1, fun n => .signed .i8 (twosComplement 1 n)),
    (0xd1, 2, fun n => .signed .i16 (twosComplement 2 n)),
    (0xd2, 4, fun n => .signed .i32 (twosComplement 4 n)),
    (0xd3, 8, fun n => .signed .i64 (twosComplement 8 n)),
    (0xd9, 1, .str), (0xda, 2, .str), (0xdb, 4, .str),
    (0xdc, 2, .array), (0xdd, 4, .array), (0xde, 2, .map), (0xdf, 4, .map)]

/-- The markers of an extension of fixed size. -/
def fixedExtensions : List (UInt8 × Nat) :=
  [(0xd4, 1), (0xd5, 2), (0xd6, 4), (0xd7, 8), (0xd8, 16)]

/-- The markers of an extension of any size, and how many bytes the size
takes. -/
def sizedExtensions : List (UInt8 × Nat) :=
  [(0xc7, 1), (0xc8, 2), (0xc9, 4)]

/-- The ways to write a header. -/
inductive Spells : Header → Bytes → Prop
  | nil : Spells .nil [0xc0]
  | off : Spells (.bool false) [0xc2]
  | on : Spells (.bool true) [0xc3]
  | positive {n : Nat} : n < 0x80 → Spells (.unsigned .fix n) [UInt8.ofNat n]
  | negative {n : Nat} : 0xe0 ≤ n → n < 0x100 →
      Spells (.signed .fix (twosComplement 1 n)) [UInt8.ofNat n]
  | shortMap {n : Nat} : n < 16 → Spells (.map n) [UInt8.ofNat (0x80 + n)]
  | shortArray {n : Nat} : n < 16 → Spells (.array n) [UInt8.ofNat (0x90 + n)]
  | shortStr {n : Nat} : n < 32 → Spells (.str n) [UInt8.ofNat (0xa0 + n)]
  | numbered {marker : UInt8} {width n : Nat} {make : Nat → Header} :
      (marker, width, make) ∈ numberedForms → n < 256 ^ width →
      Spells (make n) (marker :: Bytes.ofNat width n)
  | fixedExtension {marker kind : UInt8} {size : Nat} :
      (marker, size) ∈ fixedExtensions → Spells (.ext kind size) [marker, kind]
  | sizedExtension {marker kind : UInt8} {width size : Nat} :
      (marker, width) ∈ sizedExtensions → size < 256 ^ width →
      Spells (.ext kind size) (marker :: (Bytes.ofNat width size ++ [kind]))

/-! ### A spelling is read as its header -/

private theorem read_short {n : Nat} (hn : n < 0x100) (rest : Bytes) :
    read (UInt8.ofNat n :: rest) =
      if n < 0x80 then some (.unsigned .fix n, rest)
      else if n < 0x90 then some (.map (n - 0x80), rest)
      else if n < 0xa0 then some (.array (n - 0x90), rest)
      else if n < 0xc0 then some (.str (n - 0xa0), rest)
      else if n < 0xe0 then readMarked (UInt8.ofNat n) rest
      else some (.signed .fix (twosComplement 1 n), rest) := by
  have htoNat : (UInt8.ofNat n).toNat = n := UInt8.toNat_ofNat_of_lt' hn
  simp only [read, htoNat]

private theorem read_numbered :
    ∀ form ∈ numberedForms, ∀ tail : Bytes,
      read (form.1 :: tail) = readNumbered form.2.1 form.2.2 tail := by
  simp only [numberedForms, List.forall_mem_cons, List.not_mem_nil,
    false_imp_iff, implies_true, and_true]
  and_intros <;> intro tail <;> rfl

private theorem read_fixedExtension :
    ∀ form ∈ fixedExtensions, ∀ tail : Bytes,
      read (form.1 :: tail) = readKind form.2 tail := by
  simp only [fixedExtensions, List.forall_mem_cons, List.not_mem_nil,
    false_imp_iff, implies_true, and_true]
  and_intros <;> intro tail <;> rfl

private theorem read_sizedExtension :
    ∀ form ∈ sizedExtensions, ∀ tail : Bytes,
      read (form.1 :: tail) = readExtension form.2 tail := by
  simp only [sizedExtensions, List.forall_mem_cons, List.not_mem_nil,
    false_imp_iff, implies_true, and_true]
  and_intros <;> intro tail <;> rfl

theorem Spells.read_append {header : Header} {used : Bytes}
    (h : Spells header used) (rest : Bytes) :
    read (used ++ rest) = some (header, rest) := by
  cases h with
  | nil => rfl
  | off => rfl
  | on => rfl
  | positive hn =>
      rw [List.singleton_append, read_short (by omega), if_pos hn]
  | negative hlow hhigh =>
      rw [List.singleton_append, read_short hhigh, if_neg (by omega),
        if_neg (by omega), if_neg (by omega), if_neg (by omega),
        if_neg (by omega)]
  | shortMap hn =>
      rw [List.singleton_append, read_short (by omega), if_neg (by omega),
        if_pos (by omega), Nat.add_sub_cancel_left]
  | shortArray hn =>
      rw [List.singleton_append, read_short (by omega), if_neg (by omega),
        if_neg (by omega), if_pos (by omega), Nat.add_sub_cancel_left]
  | shortStr hn =>
      rw [List.singleton_append, read_short (by omega), if_neg (by omega),
        if_neg (by omega), if_neg (by omega), if_pos (by omega),
        Nat.add_sub_cancel_left]
  | @numbered marker width n make hform hn =>
      have hnumber := Reader.number_eq_some_iff.mpr ⟨hn, (rfl :
        Bytes.ofNat width n ++ rest = Bytes.ofNat width n ++ rest)⟩
      rw [List.cons_append, read_numbered _ hform, readNumbered, hnumber]
      rfl
  | fixedExtension hform =>
      rw [List.cons_append, read_fixedExtension _ hform]
      rfl
  | @sizedExtension marker kind width size hform hsize =>
      have hnumber := Reader.number_eq_some_iff.mpr ⟨hsize, (rfl :
        Bytes.ofNat width size ++ (kind :: rest) =
          Bytes.ofNat width size ++ (kind :: rest))⟩
      rw [List.cons_append, read_sizedExtension _ hform, readExtension,
        List.append_assoc, List.singleton_append, hnumber]
      rfl

/-! ### A header that is read was spelled -/

private theorem spells_of_readNumbered {marker : UInt8} {width : Nat}
    {make : Nat → Header} {header : Header} {tail rest : Bytes}
    (hform : (marker, width, make) ∈ numberedForms)
    (h : readNumbered width make tail = some (header, rest)) :
    ∃ used, Spells header used ∧ marker :: tail = used ++ rest := by
  simp only [readNumbered, Option.bind_eq_bind, Option.bind_eq_some_iff,
    Prod.exists, Option.some.injEq, Prod.mk.injEq] at h
  obtain ⟨n, rest, hnumber, rfl, rfl⟩ := h
  obtain ⟨hn, rfl⟩ := Reader.number_eq_some_iff.mp hnumber
  exact ⟨_, .numbered hform hn, rfl⟩

private theorem eq_of_readKind {size : Nat} {header : Header}
    {tail rest : Bytes} (h : readKind size tail = some (header, rest)) :
    ∃ kind, tail = kind :: rest ∧ header = .ext kind size := by
  cases tail with
  | nil => simp [readKind, Reader.byte] at h
  | cons kind tail =>
      simp only [readKind, Reader.byte, Option.bind_eq_bind,
        Option.bind_some, Option.some.injEq, Prod.mk.injEq] at h
      obtain ⟨rfl, rfl⟩ := h
      exact ⟨kind, rfl, rfl⟩

private theorem spells_of_readKind {marker : UInt8} {size : Nat}
    {header : Header} {tail rest : Bytes}
    (hform : (marker, size) ∈ fixedExtensions)
    (h : readKind size tail = some (header, rest)) :
    ∃ used, Spells header used ∧ marker :: tail = used ++ rest := by
  obtain ⟨kind, rfl, rfl⟩ := eq_of_readKind h
  exact ⟨_, .fixedExtension hform, rfl⟩

private theorem spells_of_readExtension {marker : UInt8} {width : Nat}
    {header : Header} {tail rest : Bytes}
    (hform : (marker, width) ∈ sizedExtensions)
    (h : readExtension width tail = some (header, rest)) :
    ∃ used, Spells header used ∧ marker :: tail = used ++ rest := by
  simp only [readExtension, Option.bind_eq_bind, Option.bind_eq_some_iff,
    Prod.exists] at h
  obtain ⟨size, after, hnumber, hkind⟩ := h
  obtain ⟨hsize, rfl⟩ := Reader.number_eq_some_iff.mp hnumber
  obtain ⟨kind, rfl, rfl⟩ := eq_of_readKind hkind
  exact ⟨_, .sizedExtension hform hsize, by simp⟩

private theorem spells_of_readMarked {marker : UInt8} {header : Header}
    {tail rest : Bytes} (h : readMarked marker tail = some (header, rest)) :
    ∃ used, Spells header used ∧ marker :: tail = used ++ rest := by
  unfold readMarked at h
  -- One goal for each marker, in the order of the definition.
  split at h
  · cases h
    exact ⟨_, .nil, rfl⟩
  · cases h
    exact ⟨_, .off, rfl⟩
  · cases h
    exact ⟨_, .on, rfl⟩
  iterate 3 exact spells_of_readNumbered (by simp [numberedForms]) h
  iterate 3 exact spells_of_readExtension (by simp [sizedExtensions]) h
  iterate 10 exact spells_of_readNumbered (by simp [numberedForms]) h
  iterate 5 exact spells_of_readKind (by simp [fixedExtensions]) h
  iterate 7 exact spells_of_readNumbered (by simp [numberedForms]) h
  · simp at h

theorem spells_of_read {header : Header} {bytes rest : Bytes}
    (h : read bytes = some (header, rest)) :
    ∃ used, Spells header used ∧ bytes = used ++ rest := by
  cases bytes with
  | nil => simp [read] at h
  | cons byte tail =>
      have hbyte : byte.toNat < 0x100 := byte.toNat_lt
      rw [← UInt8.ofNat_toNat (x := byte), read_short hbyte] at h
      rw [← UInt8.ofNat_toNat (x := byte)]
      generalize byte.toNat = n at h hbyte ⊢
      split at h
      · rename_i hn
        cases h
        exact ⟨_, .positive hn, rfl⟩
      split at h
      · cases h
        exact ⟨_, .shortMap (by omega), by
          rw [Nat.add_sub_of_le (by omega), List.singleton_append]⟩
      split at h
      · cases h
        exact ⟨_, .shortArray (by omega), by
          rw [Nat.add_sub_of_le (by omega), List.singleton_append]⟩
      split at h
      · cases h
        exact ⟨_, .shortStr (by omega), by
          rw [Nat.add_sub_of_le (by omega), List.singleton_append]⟩
      split at h
      · exact spells_of_readMarked h
      · cases h
        exact ⟨_, .negative (by omega) hbyte, rfl⟩

theorem read_eq_some_iff {header : Header} {bytes rest : Bytes} :
    read bytes = some (header, rest) ↔
      ∃ used, Spells header used ∧ bytes = used ++ rest := by
  constructor
  · exact spells_of_read
  · intro h
    obtain ⟨used, hspells, rfl⟩ := h
    exact hspells.read_append rest

end Header

namespace Value

/-! ## Values -/

mutual

/-- The bytes that a value may have: a header in any of its spellings, then the
content. -/
inductive Serialises : Value → Bytes → Prop
  | nil {header : Bytes} : Header.nil.Spells header → Serialises .nil header
  | bool {flag : Bool} {header : Bytes} :
      (Header.bool flag).Spells header → Serialises (.bool flag) header
  | unsigned {form : Unsigned} {n : Nat} {header : Bytes} :
      (Header.unsigned form n).Spells header →
      Serialises (.unsigned form n) header
  | signed {form : Signed} {i : Int} {header : Bytes} :
      (Header.signed form i).Spells header → Serialises (.signed form i) header
  | float32 {bits : Nat} {header : Bytes} :
      (Header.float32 bits).Spells header → Serialises (.float32 bits) header
  | float64 {bits : Nat} {header : Bytes} :
      (Header.float64 bits).Spells header → Serialises (.float64 bits) header
  | str {content header : Bytes} :
      (Header.str content.length).Spells header →
      Serialises (.str content) (header ++ content)
  | bin {content header : Bytes} :
      (Header.bin content.length).Spells header →
      Serialises (.bin content) (header ++ content)
  | ext {kind : UInt8} {content header : Bytes} :
      (Header.ext kind content.length).Spells header →
      Serialises (.ext kind content) (header ++ content)
  | array {items : List Value} {header body : Bytes} :
      (Header.array items.length).Spells header → SerialisesItems items body →
      Serialises (.array items) (header ++ body)
  | map {entries : List (Value × Value)} {header body : Bytes} :
      (Header.map entries.length).Spells header →
      SerialisesEntries entries body →
      Serialises (.map entries) (header ++ body)

inductive SerialisesItems : List Value → Bytes → Prop
  | nil : SerialisesItems [] []
  | cons {item : Value} {items : List Value} {first others : Bytes} :
      Serialises item first → SerialisesItems items others →
      SerialisesItems (item :: items) (first ++ others)

inductive SerialisesEntries : List (Value × Value) → Bytes → Prop
  | nil : SerialisesEntries [] []
  | cons {key value : Value} {entries : List (Value × Value)}
      {first second others : Bytes} :
      Serialises key first → Serialises value second →
      SerialisesEntries entries others →
      SerialisesEntries ((key, value) :: entries) (first ++ (second ++ others))

end

/-! ### A serialisation is read as its value -/

/-- How the values inside are read when so many levels are left. -/
def innerReader : Nat → Option (Reader Value)
  | 0 => none
  | levels + 1 => some (read levels)

theorem read_eq_readWith (levels : Nat) :
    read levels = readWith (innerReader levels) := by
  cases levels <;> rfl

theorem heightOfItems_cons_le_iff {item : Value} {items : List Value}
    {levels : Nat} :
    heightOfItems (item :: items) ≤ levels ↔
      item.height ≤ levels ∧ heightOfItems items ≤ levels := by
  rw [heightOfItems, Nat.max_le]

theorem heightOfEntries_cons_le_iff {key value : Value}
    {entries : List (Value × Value)} {levels : Nat} :
    heightOfEntries ((key, value) :: entries) ≤ levels ↔
      (key.height ≤ levels ∧ value.height ≤ levels) ∧
        heightOfEntries entries ≤ levels := by
  rw [heightOfEntries, Nat.max_le, Nat.max_le]

mutual

theorem Serialises.read_append {v : Value} {used : Bytes}
    (h : v.Serialises used) (levels : Nat) (rest : Bytes) :
    read levels (used ++ rest) =
      if v.height ≤ levels then some (v, rest) else none := by
  rw [read_eq_readWith]
  match h with
  | .nil hheader => simp [readWith, hheader.read_append, height]
  | .bool hheader => simp [readWith, hheader.read_append, height]
  | .unsigned hheader => simp [readWith, hheader.read_append, height]
  | .signed hheader => simp [readWith, hheader.read_append, height]
  | .float32 hheader => simp [readWith, hheader.read_append, height]
  | .float64 hheader => simp [readWith, hheader.read_append, height]
  | @Serialises.str content _ hheader =>
      have hcontent := Reader.bytes_eq_some_iff.mpr
        ⟨rfl, (rfl : content ++ rest = content ++ rest)⟩
      simp [readWith, hheader.read_append, hcontent, height]
  | @Serialises.bin content _ hheader =>
      have hcontent := Reader.bytes_eq_some_iff.mpr
        ⟨rfl, (rfl : content ++ rest = content ++ rest)⟩
      simp [readWith, hheader.read_append, hcontent, height]
  | @Serialises.ext _ content _ hheader =>
      have hcontent := Reader.bytes_eq_some_iff.mpr
        ⟨rfl, (rfl : content ++ rest = content ++ rest)⟩
      cases levels with
      | zero => simp [readWith, hheader.read_append, innerReader, height]
      | succ levels =>
          simp [readWith, hheader.read_append, innerReader, hcontent, height]
  | .array hheader hitems =>
      cases levels with
      | zero => simp [readWith, hheader.read_append, innerReader, height]
      | succ levels =>
          have hread := hitems.many_read_append levels rest
          simp only [readWith, innerReader, List.append_assoc,
            hheader.read_append, Option.bind_eq_bind, Option.bind_some, hread,
            height, Nat.add_le_add_iff_right]
          split <;> rfl
  | .map hheader hentries =>
      cases levels with
      | zero => simp [readWith, hheader.read_append, innerReader, height]
      | succ levels =>
          have hread := hentries.many_read_append levels rest
          simp only [readWith, innerReader, List.append_assoc,
            hheader.read_append, Option.bind_eq_bind, Option.bind_some, hread,
            height, Nat.add_le_add_iff_right]
          split <;> rfl

theorem SerialisesItems.many_read_append {items : List Value} {used : Bytes}
    (h : SerialisesItems items used) (levels : Nat) (rest : Bytes) :
    Reader.many (read levels) items.length (used ++ rest) =
      if heightOfItems items ≤ levels then some (items, rest) else none := by
  match h with
  | .nil => simp [Reader.many, heightOfItems]
  | @SerialisesItems.cons item items _ others hitem hitems =>
      have hfirst := hitem.read_append levels (others ++ rest)
      have hothers := hitems.many_read_append levels rest
      by_cases hheight : item.height ≤ levels <;>
        by_cases hrest : heightOfItems items ≤ levels <;>
        simp [Reader.many, heightOfItems_cons_le_iff, hfirst, hothers, hheight,
          hrest]

theorem SerialisesEntries.many_read_append {entries : List (Value × Value)}
    {used : Bytes} (h : SerialisesEntries entries used) (levels : Nat)
    (rest : Bytes) :
    Reader.many (Reader.pair (read levels)) entries.length (used ++ rest) =
      if heightOfEntries entries ≤ levels then some (entries, rest)
      else none := by
  match h with
  | .nil => simp [Reader.many, heightOfEntries]
  | @SerialisesEntries.cons key value entries _ second others hkey hvalue
      hentries =>
      have hfirst := hkey.read_append levels (second ++ (others ++ rest))
      have hsecond := hvalue.read_append levels (others ++ rest)
      have hothers := hentries.many_read_append levels rest
      by_cases hheight : key.height ≤ levels <;>
        by_cases hheight' : value.height ≤ levels <;>
        by_cases hrest : heightOfEntries entries ≤ levels <;>
        simp [Reader.many, Reader.pair, heightOfEntries_cons_le_iff, hfirst,
          hsecond, hothers, hheight, hheight', hrest]

end

/-! ### A value that is read was serialised -/

/-- All that the reader finds was serialised and nests at most so deep. -/
def FindsSerialised (levels : Nat) (item : Reader Value) : Prop :=
  ∀ {bytes rest : Bytes} {v : Value}, item bytes = some (v, rest) →
    ∃ used, v.Serialises used ∧ v.height ≤ levels ∧ bytes = used ++ rest

theorem FindsSerialised.many {levels : Nat} {item : Reader Value}
    (hitem : FindsSerialised levels item) {count : Nat} {bytes rest : Bytes}
    {items : List Value}
    (h : Reader.many item count bytes = some (items, rest)) :
    items.length = count ∧ ∃ used, SerialisesItems items used ∧
      heightOfItems items ≤ levels ∧ bytes = used ++ rest := by
  induction count generalizing bytes items with
  | zero =>
      cases h
      exact ⟨rfl, [], .nil, by simp [heightOfItems], rfl⟩
  | succ count ih =>
      simp only [Reader.many, Option.bind_eq_bind, Option.bind_eq_some_iff,
        Prod.exists, Option.some.injEq, Prod.mk.injEq] at h
      obtain ⟨first, after, hfirst, others, _, hothers, rfl, rfl⟩ := h
      obtain ⟨used, hserialises, hheight, rfl⟩ := hitem hfirst
      obtain ⟨rfl, used', hserialises', hheight', rfl⟩ := ih hothers
      exact ⟨rfl, _, .cons hserialises hserialises',
        heightOfItems_cons_le_iff.mpr ⟨hheight, hheight'⟩, by simp⟩

theorem FindsSerialised.many_pair {levels : Nat} {item : Reader Value}
    (hitem : FindsSerialised levels item) {count : Nat} {bytes rest : Bytes}
    {entries : List (Value × Value)}
    (h : Reader.many (Reader.pair item) count bytes = some (entries, rest)) :
    entries.length = count ∧ ∃ used, SerialisesEntries entries used ∧
      heightOfEntries entries ≤ levels ∧ bytes = used ++ rest := by
  induction count generalizing bytes entries with
  | zero =>
      cases h
      exact ⟨rfl, [], .nil, by simp [heightOfEntries], rfl⟩
  | succ count ih =>
      simp only [Reader.many, Reader.pair, Option.bind_eq_bind,
        Option.bind_eq_some_iff, Prod.exists, Option.some.injEq,
        Prod.mk.injEq] at h
      obtain ⟨_, _, _, ⟨key, _, hkey, value, _, hvalue, ⟨rfl, rfl⟩, rfl⟩,
        others, _, hothers, rfl, rfl⟩ := h
      obtain ⟨used, hserialises, hheight, rfl⟩ := hitem hkey
      obtain ⟨used', hserialises', hheight', rfl⟩ := hitem hvalue
      obtain ⟨rfl, used'', hserialises'', hheight'', rfl⟩ := ih hothers
      exact ⟨rfl, _, .cons hserialises hserialises' hserialises'',
        heightOfEntries_cons_le_iff.mpr ⟨⟨hheight, hheight'⟩, hheight''⟩,
        by simp⟩

/-- One level of reading, over a reader for the level below.  Scalars and
strings open no level, so they are found even when there is none below. -/
theorem findsSerialised_readWith {levels : Nat} {inner : Option (Reader Value)}
    (hinner : ∀ item, inner = some item →
      ∃ below, levels = below + 1 ∧ FindsSerialised below item) :
    FindsSerialised levels (readWith inner) := by
  intro bytes rest v h
  simp only [readWith, Option.bind_eq_bind, Option.bind_eq_some_iff,
    Prod.exists] at h
  obtain ⟨header, after, hheader, h⟩ := h
  obtain ⟨spelling, hspells, rfl⟩ := Header.spells_of_read hheader
  cases header with
  | nil =>
      cases h
      exact ⟨_, .nil hspells, Nat.zero_le _, rfl⟩
  | bool flag =>
      cases h
      exact ⟨_, .bool hspells, Nat.zero_le _, rfl⟩
  | unsigned form n =>
      cases h
      exact ⟨_, .unsigned hspells, Nat.zero_le _, rfl⟩
  | signed form i =>
      cases h
      exact ⟨_, .signed hspells, Nat.zero_le _, rfl⟩
  | float32 bits =>
      cases h
      exact ⟨_, .float32 hspells, Nat.zero_le _, rfl⟩
  | float64 bits =>
      cases h
      exact ⟨_, .float64 hspells, Nat.zero_le _, rfl⟩
  | str size =>
      simp only [Option.bind_eq_some_iff, Prod.exists, Option.some.injEq,
        Prod.mk.injEq, Reader.bytes_eq_some_iff] at h
      obtain ⟨content, _, ⟨rfl, rfl⟩, rfl, rfl⟩ := h
      exact ⟨_, .str hspells, Nat.zero_le _, by simp⟩
  | bin size =>
      simp only [Option.bind_eq_some_iff, Prod.exists, Option.some.injEq,
        Prod.mk.injEq, Reader.bytes_eq_some_iff] at h
      obtain ⟨content, _, ⟨rfl, rfl⟩, rfl, rfl⟩ := h
      exact ⟨_, .bin hspells, Nat.zero_le _, by simp⟩
  | ext kind size =>
      cases inner with
      | none => simp at h
      | some item =>
          obtain ⟨below, rfl, -⟩ := hinner item rfl
          simp only [Option.bind_eq_some_iff, Prod.exists, Option.some.injEq,
            Prod.mk.injEq, Reader.bytes_eq_some_iff] at h
          obtain ⟨content, _, ⟨rfl, rfl⟩, rfl, rfl⟩ := h
          exact ⟨_, .ext hspells, by simp [height], by simp⟩
  | array size =>
      cases inner with
      | none => simp at h
      | some item =>
          obtain ⟨below, rfl, hitem⟩ := hinner item rfl
          simp only [Option.bind_eq_some_iff, Prod.exists, Option.some.injEq,
            Prod.mk.injEq] at h
          obtain ⟨items, _, hitems, rfl, rfl⟩ := h
          obtain ⟨rfl, used, hserialises, hheight, rfl⟩ := hitem.many hitems
          exact ⟨_, .array hspells hserialises, by simpa [height], by simp⟩
  | map size =>
      cases inner with
      | none => simp at h
      | some item =>
          obtain ⟨below, rfl, hitem⟩ := hinner item rfl
          simp only [Option.bind_eq_some_iff, Prod.exists, Option.some.injEq,
            Prod.mk.injEq] at h
          obtain ⟨entries, _, hentries, rfl, rfl⟩ := h
          obtain ⟨rfl, used, hserialises, hheight, rfl⟩ :=
            hitem.many_pair hentries
          exact ⟨_, .map hspells hserialises, by simpa [height], by simp⟩

theorem findsSerialised_read (levels : Nat) :
    FindsSerialised levels (read levels) := by
  induction levels with
  | zero => exact findsSerialised_readWith (by simp)
  | succ levels ih =>
      apply findsSerialised_readWith
      intro item hitem
      cases hitem
      exact ⟨levels, rfl, ih⟩

theorem read_eq_some_iff {levels : Nat} {bytes rest : Bytes} {v : Value} :
    read levels bytes = some (v, rest) ↔
      ∃ used, v.Serialises used ∧ v.height ≤ levels ∧
        bytes = used ++ rest := by
  constructor
  · intro h
    exact findsSerialised_read levels h
  · intro h
    obtain ⟨used, hserialises, hheight, rfl⟩ := h
    rw [hserialises.read_append, if_pos hheight]

/-! ### Where a serialisation ends -/

/-- Both readings agree, given levels enough for either value. -/
theorem Serialises.append_inj {v w : Value} {used other rest tail : Bytes}
    (hv : v.Serialises used) (hw : w.Serialises other)
    (h : used ++ rest = other ++ tail) :
    v = w ∧ used = other ∧ rest = tail := by
  have hreadV := hv.read_append (max v.height w.height) rest
  have hreadW := hw.read_append (max v.height w.height) tail
  rw [if_pos (Nat.le_max_left _ _)] at hreadV
  rw [if_pos (Nat.le_max_right _ _), ← h, hreadV] at hreadW
  obtain ⟨rfl, rfl⟩ := Prod.mk.inj (Option.some.inj hreadW)
  exact ⟨rfl, List.append_cancel_right h, rfl⟩

end Value

end Lowering.MessagePack
