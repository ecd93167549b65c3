import Lowering.MessagePack.Record
import Mathlib.Data.List.Forall2

/-!
# The forms of texts, keys, records and lists

The same text, record or list can be written in several forms.  The relations
below say which values are a form of what, without saying how to find out:
`RepresentsText`, `IsKey`, `Names`, `IsRecord` and `IsList`.  For each there is
a partial function that takes values apart, and each section closes with the
equivalence of the two.

All that a record or a list is made of stands directly inside of it, among its
`children`.  Whatever passes from a value to its children, such as a bound on
the nesting, therefore passes to the fields of records and to the items of
lists.

## Main results

* `Value.text?_eq_some_iff` — a value gives a text exactly when it represents
  it.
* `Value.fields?_eq_some_iff` — a value gives fields exactly when it is a record
  of them.
* `Value.items?_eq_some_iff` — a value gives items exactly when it is a list of
  them.
-/

namespace Lowering

/-! ## Text -/

namespace Utf8

theorem encode_of_decode? {bytes : Bytes} {text : String}
    (h : decode? bytes = some text) : encode text = bytes := by
  unfold decode? String.fromUTF8? at h
  split at h
  · cases h
    rfl
  · cases h

theorem decode?_eq_some_iff {bytes : Bytes} {text : String} :
    decode? bytes = some text ↔ bytes = encode text := by
  constructor
  · intro h
    exact (encode_of_decode? h).symm
  · intro h
    subst h
    exact decode?_encode text

theorem encode_inj {a b : String} : encode a = encode b ↔ a = b := by
  constructor
  · intro h
    have hdecode := decode?_encode a
    rw [h, decode?_encode b] at hdecode
    exact (Option.some.inj hdecode).symm
  · intro h
    subst h
    rfl

end Utf8

namespace MessagePack

/-- A function over a list succeeds when it succeeds on every item. -/
theorem mapM_eq_some_iff {α β : Type} {f : α → Option β} {items : List α}
    {results : List β} :
    items.mapM f = some results ↔
      List.Forall₂ (fun item result => f item = some result) items results := by
  induction items generalizing results with
  | nil => simp [eq_comm]
  | cons item items ih =>
      simp only [List.mapM_cons, Option.bind_eq_bind, Option.bind_eq_some_iff,
        Option.pure_def, Option.some.injEq, List.forall₂_cons_left_iff, ih]
      constructor
      · intro h
        obtain ⟨result, hresult, results, hresults, rfl⟩ := h
        exact ⟨result, results, hresult, hresults, rfl⟩
      · intro h
        obtain ⟨result, results, hresult, hresults, rfl⟩ := h
        exact ⟨result, hresult, results, hresults, rfl⟩

/-- A search that finds one item and no other. -/
theorem filter_eq_singleton_iff {α : Type} {p : α → Bool} {items : List α}
    {item : α} :
    items.filter p = [item] ↔
      ∃ before after, items = before ++ item :: after ∧ p item = true ∧
        ∀ other ∈ before ++ after, ¬ p other = true := by
  simp only [List.filter_eq_cons_iff, List.filter_eq_nil_iff,
    List.forall_mem_append]
  constructor
  · intro h
    obtain ⟨before, after, hitems, hbefore, hitem, hafter⟩ := h
    exact ⟨before, after, hitems, hitem, hbefore, hafter⟩
  · intro h
    obtain ⟨before, after, hitems, hitem, hbefore, hafter⟩ := h
    exact ⟨before, after, hitems, hbefore, hitem, hafter⟩

/-- All others stay when the one item is taken out. -/
theorem filter_not_eq_append {α : Type} (p : α → Bool) (item : α)
    {before after : List α} (hitem : p item = true)
    (hothers : ∀ other ∈ before ++ after, ¬ p other = true) :
    (before ++ item :: after).filter (not ∘ p) = before ++ after := by
  have hdrop : (item :: after).filter (not ∘ p) = after.filter (not ∘ p) := by
    simp [hitem]
  rw [List.filter_append, hdrop, ← List.filter_append, List.filter_eq_self]
  intro other hother
  simpa using hothers other hother

namespace Value

/-- A string of either kind that spells the text in UTF-8. -/
def RepresentsText (v : Value) (text : String) : Prop :=
  v = .str (Utf8.encode text) ∨ v = .bin (Utf8.encode text)

theorem content?_eq_some_iff {v : Value} {content : Bytes} :
    v.content? = some content ↔ v = .str content ∨ v = .bin content := by
  cases v <;> simp [content?]

theorem content?_eq_encode_iff {v : Value} {text : String} :
    v.content? = some (Utf8.encode text) ↔ v.RepresentsText text :=
  content?_eq_some_iff

theorem text?_eq_some_iff {v : Value} {text : String} :
    v.text? = some text ↔ v.RepresentsText text := by
  simp only [text?, Option.bind_eq_some_iff, Utf8.decode?_eq_some_iff]
  rw [← content?_eq_encode_iff]
  constructor
  · intro h
    obtain ⟨content, hcontent, rfl⟩ := h
    exact hcontent
  · intro h
    exact ⟨_, h, rfl⟩

/-! ## Keys -/

/-- A value that may stand as a key, whether or not it names a field. -/
inductive IsKey (place : Place) : Value → Prop
  | str {content : Bytes} : IsKey place (.str content)
  | bin {content : Bytes} : IsKey place (.bin content)
  | index {form : Unsigned} {n : Nat} :
      place.takes form = true → IsKey place (.unsigned form n)

/-- A key that means the field at a position. -/
inductive Names (place : Place) (names : List String) : Value → Nat → Prop
  | byName {key : Value} {position : Nat} {name : String} :
      names[position]? = some name → key.RepresentsText name →
      Names place names key position
  | byIndex {form : Unsigned} {position : Nat} :
      place.takes form = true → position < names.length →
      Names place names (.unsigned form position) position

theorem names_iff_of_content? {place : Place} {names : List String}
    {v : Value} {content : Bytes} (hcontent : v.content? = some content)
    {position : Nat} :
    v.Names place names position ↔
      ∃ name, names[position]? = some name ∧ Utf8.encode name = content := by
  constructor
  · intro h
    cases h with
    | byName hname htext =>
        rw [content?_eq_encode_iff.mpr htext] at hcontent
        exact ⟨_, hname, Option.some.inj hcontent⟩
    | byIndex => simp [content?] at hcontent
  · intro h
    obtain ⟨name, hname, rfl⟩ := h
    exact .byName hname (content?_eq_encode_iff.mp hcontent)

theorem names_unsigned_iff {place : Place} {names : List String}
    {form : Unsigned} {n position : Nat} :
    Names place names (.unsigned form n) position ↔
      place.takes form = true ∧ n = position ∧ position < names.length := by
  constructor
  · intro h
    cases h with
    | byName hname htext => rcases htext with h | h <;> cases h
    | byIndex hform hposition => exact ⟨hform, rfl, hposition⟩
  · intro h
    obtain ⟨hform, rfl, hposition⟩ := h
    exact .byIndex hform hposition

/-- A field is found by its name.  No two fields share one, so the search for
the first cannot stop too early. -/
theorem findIdx?_name_eq_some_iff {names : List String} (hnodup : names.Nodup)
    {content : Bytes} {position : Nat} :
    names.findIdx? (fun name => Utf8.encode name == content) = some position ↔
      ∃ name, names[position]? = some name ∧ Utf8.encode name = content := by
  rw [List.findIdx?_eq_some_iff_getElem]
  constructor
  · intro h
    obtain ⟨hposition, hname, -⟩ := h
    exact ⟨_, List.getElem?_eq_getElem hposition, by simpa using hname⟩
  · intro h
    obtain ⟨name, hname, rfl⟩ := h
    obtain ⟨hposition, rfl⟩ := List.getElem?_eq_some_iff.mp hname
    refine ⟨hposition, by simp, ?_⟩
    intro earlier hearlier hsame
    have hsame : names[earlier] = names[position] := by
      simpa [Utf8.encode_inj] using hsame
    have := (List.getElem_inj hnodup).mp hsame
    omega

/-- A string of either kind is always a key. -/
theorem key?_of_content? {place : Place} {names : List String} {v : Value}
    {content : Bytes} (hcontent : v.content? = some content) :
    v.key? place names =
      some (match names.findIdx? fun name => Utf8.encode name == content with
        | some position => .field position
        | none => .unknown) := by
  rcases content?_eq_some_iff.mp hcontent with rfl | rfl
  all_goals
    simp only [key?, content?, Option.bind_eq_bind, Option.bind_some]
    cases names.findIdx? fun name => Utf8.encode name == content <;> rfl

theorem key?_eq_field_iff {place : Place} {names : List String}
    (hnodup : names.Nodup) {v : Value} {position : Nat} :
    v.key? place names = some (.field position) ↔
      v.Names place names position := by
  cases hcontent : v.content? with
  | some content =>
      rw [key?_of_content? hcontent, names_iff_of_content? hcontent,
        ← findIdx?_name_eq_some_iff hnodup]
      cases names.findIdx? fun name => Utf8.encode name == content <;> simp
  | none =>
      cases v with
      | unsigned form n =>
          rw [names_unsigned_iff]
          simp only [key?]
          split <;> rename_i hform
          · split <;> grind
          · simp [hform]
      | str content => simp [content?] at hcontent
      | bin content => simp [content?] at hcontent
      | _ =>
          simp only [key?, content?, Option.bind_eq_bind, Option.bind_none,
            reduceCtorEq, false_iff]
          rintro ⟨-, h | h⟩ <;> cases h

theorem key?_isSome_iff {place : Place} (names : List String) {v : Value} :
    (v.key? place names).isSome = true ↔ v.IsKey place := by
  cases v with
  | str content => simp [key?_of_content? (v := str content) rfl, IsKey.str]
  | bin content => simp [key?_of_content? (v := bin content) rfl, IsKey.bin]
  | unsigned form n =>
      simp only [key?]
      split <;> rename_i hform
      · simp [IsKey.index hform]
      · simp only [Option.isSome_none, Bool.false_eq_true, false_iff]
        intro h
        cases h with
        | index h => exact hform h
  | _ =>
      simp only [key?, content?, Option.bind_eq_bind, Option.bind_none,
        Option.isSome_none, Bool.false_eq_true, false_iff]
      intro h
      cases h

/-! ## Records -/

/-- What the entries of a map give for the field at a position: nothing if no
key names it, and the one value whose key does. -/
inductive Gives (place : Place) (names : List String)
    (entries : List (Value × Value)) (position : Nat) : Option Value → Prop
  | absent :
      (∀ entry ∈ entries, ¬ entry.1.Names place names position) →
      Gives place names entries position none
  | once {before after : List (Value × Value)} {key value : Value} :
      entries = before ++ (key, value) :: after →
      key.Names place names position →
      (∀ entry ∈ before ++ after, ¬ entry.1.Names place names position) →
      Gives place names entries position (some value)

/-- A record and its fields in the order of their names, `none` where a field
is not given.  By position the first fields are given; by key any of them are,
each at most once, among other keys that count for nothing. -/
inductive IsRecord (place : Place) (names : List String) :
    Value → List (Option Value) → Prop
  | positional {items : List Value} :
      items.length ≤ names.length →
      IsRecord place names (.array items)
        (items.map some ++ List.replicate (names.length - items.length) none)
  | keyed {entries : List (Value × Value)} {fields : List (Option Value)} :
      (∀ entry ∈ entries, entry.1.IsKey place) →
      fields.length = names.length →
      (∀ position field, fields[position]? = some field →
        Gives place names entries position field) →
      IsRecord place names (.map entries) fields

/-- An entry with its key understood; the default stands where that fails. -/
def keyedEntry (place : Place) (names : List String) (entry : Value × Value) :
    Key × Value :=
  ((entry.1.key? place names).getD .unknown, entry.2)

theorem keyedEntry_fst_eq_field_iff {place : Place} {names : List String}
    (hnodup : names.Nodup) {entry : Value × Value} {position : Nat} :
    (keyedEntry place names entry).1 = .field position ↔
      entry.1.Names place names position := by
  rw [← key?_eq_field_iff hnodup, keyedEntry]
  cases entry.1.key? place names <;> simp

theorem mapM_key?_eq_some_iff {place : Place} {names : List String}
    {entries : List (Value × Value)} {keyed : List (Key × Value)} :
    (entries.mapM fun (key, value) => do
        some (← key.key? place names, value)) = some keyed ↔
      (∀ entry ∈ entries, entry.1.IsKey place) ∧
        keyed = entries.map (keyedEntry place names) := by
  induction entries generalizing keyed with
  | nil => simp [eq_comm]
  | cons entry entries ih =>
      simp only [List.mapM_cons, Option.bind_eq_bind, Option.bind_eq_some_iff,
        Option.pure_def, Option.some.injEq, List.forall_mem_cons,
        List.map_cons, keyedEntry, ← key?_isSome_iff names] at ih ⊢
      constructor
      · intro h
        obtain ⟨_, ⟨key, hkey, rfl⟩, _, hothers, rfl⟩ := h
        obtain ⟨hkeys, rfl⟩ := ih.mp hothers
        exact ⟨⟨by simp [hkey], hkeys⟩, by simp [hkey]⟩
      · intro h
        obtain ⟨⟨hfirst, hkeys⟩, rfl⟩ := h
        obtain ⟨key, hkey⟩ := Option.isSome_iff_exists.mp hfirst
        exact ⟨_, ⟨key, hkey, rfl⟩, _, ih.mpr ⟨hkeys, rfl⟩, by simp [hkey]⟩

theorem pick?_eq_some_iff {place : Place} {names : List String}
    (hnodup : names.Nodup) {entries : List (Value × Value)} {position : Nat}
    {field : Option Value} :
    pick? position (entries.map (keyedEntry place names)) = some field ↔
      Gives place names entries position field := by
  have hnames : ∀ entry : Value × Value,
      ((fun keyed : Key × Value => decide (keyed.1 = .field position)) ∘
        keyedEntry place names) entry = true ↔
        entry.1.Names place names position := by
    intro entry
    simp [keyedEntry_fst_eq_field_iff hnodup]
  rw [pick?, List.filter_map]
  constructor
  · intro h
    split at h
    · rename_i hfilter
      cases h
      rw [List.map_eq_nil_iff, List.filter_eq_nil_iff] at hfilter
      simp only [hnames] at hfilter
      exact .absent hfilter
    · rename_i hfilter
      cases h
      obtain ⟨⟨key, value⟩, hfilter, hkeyed⟩ :=
        List.map_eq_singleton_iff.mp hfilter
      obtain ⟨before, after, rfl, hkey, hothers⟩ :=
        filter_eq_singleton_iff.mp hfilter
      simp only [hnames] at hkey hothers
      obtain rfl : value = _ := congrArg Prod.snd hkeyed
      exact .once rfl hkey hothers
    · cases h
  · intro h
    cases h with
    | absent habsent =>
        rw [List.filter_eq_nil_iff.mpr (by simpa only [hnames] using habsent)]
        rfl
    | once hentries hkey hothers =>
        rw [filter_eq_singleton_iff.mpr ⟨_, _, hentries, (hnames _).mpr hkey,
          by simpa only [hnames] using hothers⟩]
        rfl

theorem mapM_range_eq_some_iff {β : Type} {f : Nat → Option β} {count : Nat}
    {results : List β} :
    (List.range count).mapM f = some results ↔
      results.length = count ∧
        ∀ position result, results[position]? = some result →
          f position = some result := by
  rw [mapM_eq_some_iff, List.forall₂_iff_get]
  simp only [List.length_range, List.get_eq_getElem, List.getElem_range]
  constructor
  · intro h
    obtain ⟨rfl, hresults⟩ := h
    refine ⟨rfl, fun position result hresult => ?_⟩
    obtain ⟨hposition, rfl⟩ := List.getElem?_eq_some_iff.mp hresult
    exact hresults position hposition hposition
  · intro h
    obtain ⟨rfl, hresults⟩ := h
    refine ⟨rfl, fun position _ hposition => ?_⟩
    exact hresults position _ (List.getElem?_eq_getElem hposition)

theorem fields?_eq_some_iff {place : Place} {names : List String}
    (hnodup : names.Nodup) {v : Value} {fields : List (Option Value)} :
    v.fields? place names = some fields ↔ v.IsRecord place names fields := by
  cases v with
  | array items =>
      simp only [fields?]
      constructor
      · intro h
        split at h
        · cases h
          exact .positional ‹_›
        · cases h
      · intro h
        cases h with
        | positional hlength => rw [if_pos hlength]
  | map entries =>
      simp only [fields?, Option.bind_eq_bind, Option.bind_eq_some_iff]
      constructor
      · intro h
        obtain ⟨keyed, hkeyed, hfields⟩ := h
        obtain ⟨hkeys, rfl⟩ := mapM_key?_eq_some_iff.mp hkeyed
        obtain ⟨hlength, hgiven⟩ := mapM_range_eq_some_iff.mp hfields
        refine .keyed hkeys hlength fun position field hfield => ?_
        exact (pick?_eq_some_iff hnodup).mp (hgiven position field hfield)
      · intro h
        cases h with
        | keyed hkeys hlength hgiven =>
            refine ⟨_, mapM_key?_eq_some_iff.mpr ⟨hkeys, rfl⟩, ?_⟩
            refine mapM_range_eq_some_iff.mpr
              ⟨hlength, fun position field hfield => ?_⟩
            exact (pick?_eq_some_iff hnodup).mpr (hgiven position field hfield)
  | _ =>
      simp only [fields?, reduceCtorEq, false_iff]
      intro h
      cases h

/-! ## Lists -/

/-- A list and its items.  Outside of expressions an empty binary string is an
empty list too. -/
inductive IsList (place : Place) : Value → List Value → Prop
  | array {items : List Value} : IsList place (.array items) items
  | emptyBin : place = .outside → IsList place (.bin []) []

theorem items?_eq_some_iff {place : Place} {v : Value} {items : List Value} :
    v.items? place = some items ↔ v.IsList place items := by
  constructor
  · intro h
    unfold items? at h
    split at h
    · cases h
      exact .array
    · split at h
      · cases h
        exact .emptyBin ‹_›
      · cases h
    · cases h
  · intro h
    cases h with
    | array => rfl
    | emptyBin hplace => simp [items?, hplace]

/-! ## What stands inside -/

/-- The items of an array and the values of a map. -/
def children : Value → List Value
  | .array items => items
  | .map entries => entries.map Prod.snd
  | _ => []

theorem IsRecord.mem_children {place : Place} {names : List String}
    {v : Value} {fields : List (Option Value)}
    (h : v.IsRecord place names fields) {x : Value} (hx : some x ∈ fields) :
    x ∈ v.children := by
  cases h with
  | positional hlength => simpa [children] using hx
  | keyed hkeys hlength hgiven =>
      obtain ⟨position, hposition⟩ := List.getElem?_of_mem hx
      cases hgiven position _ hposition with
      | once hentries _ _ => simp [children, hentries]

theorem IsList.mem_children {place : Place} {v : Value} {items : List Value}
    (h : v.IsList place items) {x : Value} (hx : x ∈ items) :
    x ∈ v.children := by
  cases h with
  | array => exact hx
  | emptyBin => simp at hx

theorem height_le_heightOfItems {items : List Value} {x : Value}
    (hx : x ∈ items) : x.height ≤ heightOfItems items := by
  induction items with
  | nil => simp at hx
  | cons item items ih =>
      rw [heightOfItems]
      rcases List.mem_cons.mp hx with rfl | hx
      · exact Nat.le_max_left _ _
      · exact Nat.le_trans (ih hx) (Nat.le_max_right _ _)

theorem height_le_heightOfEntries {entries : List (Value × Value)}
    {entry : Value × Value} (hentry : entry ∈ entries) :
    entry.2.height ≤ heightOfEntries entries := by
  induction entries with
  | nil => simp at hentry
  | cons first entries ih =>
      rw [heightOfEntries]
      rcases List.mem_cons.mp hentry with rfl | hentry
      · omega
      · have := ih hentry
        omega

theorem height_lt_of_mem_children {v x : Value} (hx : x ∈ v.children) :
    x.height < v.height := by
  cases v with
  | array items =>
      rw [height]
      exact Nat.lt_succ_of_le (height_le_heightOfItems hx)
  | map entries =>
      rw [height]
      obtain ⟨entry, hentry, rfl⟩ := List.mem_map.mp hx
      exact Nat.lt_succ_of_le (height_le_heightOfEntries hentry)
  | _ => simp [children] at hx

end Value

end MessagePack

end Lowering
