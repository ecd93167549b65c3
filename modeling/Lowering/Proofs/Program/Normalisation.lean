import Lowering.Proofs.Program.RoundTrip

/-!
# Writing what was read

A program may be read from bytes in many forms, and is written in just one.
This form never passes the limits of the reader.  It may have levels that the
value that was read had not, since a list that was missing there is written as
an empty one.  But such a list is no deeper than the name that stands beside
it, which is a record and never missing.  Only the program has nothing beside
it: it takes one level where an empty binary string took none.

Sizes are within the limits because all strings and lists come from headers.

## Main results

* `Expr.fits_of_representsExpr`, `Program.fits_of_representsProgram` — what a
  serialisable value represents has sizes that fit a header and does not nest
  deeper than the value.
* `Program.ofBytes_toBytes_of_ofBytes` — a program that was read is read again
  from the bytes written for it.
-/

namespace Lowering

namespace MessagePack.Value

/-! ## Values with a serialisation -/

/-- Some bytes serialise the value. -/
def Serialisable (v : Value) : Prop := ∃ used, v.Serialises used

theorem SerialisesItems.serialisable {items : List Value} {used : Bytes}
    (h : SerialisesItems items used) : ∀ item ∈ items, item.Serialisable := by
  induction items generalizing used with
  | nil => simp
  | cons item items ih =>
      cases h with
      | cons hitem hitems =>
          exact List.forall_mem_cons.mpr ⟨⟨_, hitem⟩, ih hitems⟩

theorem SerialisesEntries.serialisable {entries : List (Value × Value)}
    {used : Bytes} (h : SerialisesEntries entries used) :
    ∀ entry ∈ entries, entry.2.Serialisable := by
  induction entries generalizing used with
  | nil => simp
  | cons entry entries ih =>
      cases h with
      | cons hkey hvalue hentries =>
          exact List.forall_mem_cons.mpr ⟨⟨_, hvalue⟩, ih hentries⟩

namespace Serialisable

theorem of_mem_children {v x : Value} (h : v.Serialisable)
    (hx : x ∈ v.children) : x.Serialisable := by
  obtain ⟨used, hused⟩ := h
  cases hused with
  | array hheader hitems => exact hitems.serialisable x hx
  | map hheader hentries =>
      obtain ⟨entry, hentry, rfl⟩ := List.mem_map.mp hx
      exact hentries.serialisable entry hentry
  | _ => simp [children] at hx

theorem length_lt_of_array {items : List Value}
    (h : (Value.array items).Serialisable) : items.length < 2 ^ 32 := by
  obtain ⟨used, hused⟩ := h
  cases hused with
  | array hheader hitems => exact hheader.size_lt

theorem utf8ByteSize_lt_of_text {v : Value} (h : v.Serialisable) {text : String}
    (htext : v.RepresentsText text) : text.utf8ByteSize < 2 ^ 32 := by
  obtain ⟨used, hused⟩ := h
  rw [← Utf8.length_encode]
  rcases htext with rfl | rfl
  · cases hused with
    | str hheader => exact hheader.size_lt
  · cases hused with
    | bin hheader => exact hheader.size_lt

end Serialisable

/-! ## Within a level -/

/-- The value can be serialised and has at most this many levels. -/
def Within (levels : Nat) (v : Value) : Prop :=
  v.Serialisable ∧ v.height ≤ levels

theorem Within.of_mem_children {levels : Nat} {v x : Value}
    (h : v.Within levels) (hx : x ∈ v.children) :
    0 < levels ∧ x.Within (levels - 1) := by
  have hlt := height_lt_of_mem_children hx
  have hle := h.2
  exact ⟨by omega, h.1.of_mem_children hx, by omega⟩

/-- All lists come from a header, and their items are one level further in. -/
theorem IsList.within {place : Place} {levels : Nat} {v : Value}
    {items : List Value} (hlist : v.IsList place items)
    (h : v.Within levels) :
    items.length < 2 ^ 32 ∧ ∀ item ∈ items, item.Within (levels - 1) := by
  constructor
  · cases hlist with
    | array => exact h.1.length_lt_of_array
    | emptyBin => simp
  · intro item hitem
    exact (h.of_mem_children (hlist.mem_children hitem)).2

/-- Inside of an expression a list has a level of its own, even if empty. -/
theorem IsList.height_pos {v : Value} {items : List Value}
    (h : v.IsList .inside items) : 0 < v.height := by
  cases h with
  | array => simp [height]
  | emptyBin hplace => cases hplace

/-- The fields of a record that has at most this many levels. -/
def FieldsWithin (levels : Nat) (fields : List (Option Value)) : Prop :=
  ∀ x, some x ∈ fields → 0 < levels ∧ x.Within (levels - 1)

theorem IsRecord.within {place : Place} {names : List String} {levels : Nat}
    {v : Value} {fields : List (Option Value)}
    (hrecord : v.IsRecord place names fields) (h : v.Within levels) :
    FieldsWithin levels fields :=
  fun _ hx => h.of_mem_children (hrecord.mem_children hx)

theorem HasFields.within {place : Place} {kind : Expr.Kind} {levels : Nat}
    {v : Value} {fields : List (Option Value)}
    (hfields : v.HasFields place kind fields) (h : v.Within levels) :
    FieldsWithin levels fields :=
  fun _ hx => h.of_mem_children (Expr.mem_children_of_hasFields hfields hx)

theorem IsListOrMissing.within {place : Place} {levels : Nat}
    {given : Option Value} {items : List Value} {fields : List (Option Value)}
    (hlist : IsListOrMissing place given items)
    (hfields : FieldsWithin levels fields) (hgiven : given ∈ fields) :
    items.length < 2 ^ 32 ∧ ∀ item ∈ items, item.Within (levels - 2) := by
  cases hlist with
  | missing => simp
  | given hlist => exact hlist.within (hfields _ hgiven).2

end MessagePack.Value

/-! ## What is represented within some levels -/

open MessagePack (Place Value)
open MessagePack.Value

namespace Ident

theorem sized_of_representsIdentFields {levels : Nat}
    {fields : List (Option Value)} {ident : Ident}
    (h : RepresentsIdentFields fields ident)
    (hfields : FieldsWithin levels fields) :
    ident.Sized ∧ 0 < levels := by
  cases h with
  | @mk text _ _ htext _ =>
      obtain ⟨hpos, hwithin⟩ := hfields text (by simp)
      exact ⟨hwithin.1.utf8ByteSize_lt_of_text htext, hpos⟩

/-- A name is never missing, and so takes a level. -/
theorem fits_of_representsIdent {place : Place} {levels : Nat} {v : Value}
    {ident : Ident} (h : v.RepresentsIdent place ident)
    (hv : v.Within levels) : ident.Sized ∧ 0 < levels := by
  obtain ⟨fields, hrecord, hfields⟩ := h
  exact sized_of_representsIdentFields hfields (hrecord.within hv)

end Ident

/-- The fields of a call: however the arguments are given, or if they are
missing, the name makes room for their list. -/
theorem callFields_fit {place : Place} {levels : Nat} {name : Value}
    {list : Option Value} {items : List Value} {callee : Ident}
    (hfields : FieldsWithin levels [some name, list])
    (hcallee : name.RepresentsIdent place callee)
    (hlist : IsListOrMissing place list items) :
    callee.Sized ∧ 2 ≤ levels ∧ items.length < 2 ^ 32 ∧
      ∀ item ∈ items, item.Within (levels - 2) := by
  obtain ⟨-, hname⟩ := hfields name (by simp)
  obtain ⟨hsized, hpos⟩ := Ident.fits_of_representsIdent hcallee hname
  exact ⟨hsized, by omega, hlist.within hfields (by simp)⟩

namespace Expr

theorem textField_fits {place : Place} {kind : Kind} {levels : Nat}
    {v text : Value} {content : String}
    (hfields : v.HasFields place kind [some text])
    (htext : text.RepresentsText content) (hv : v.Within levels) :
    content.utf8ByteSize < 2 ^ 32 ∧ 1 ≤ levels := by
  obtain ⟨hpos, hwithin⟩ := hfields.within hv text (by simp)
  exact ⟨hwithin.1.utf8ByteSize_lt_of_text htext, hpos⟩

mutual

theorem fits_of_representsExpr {place : Place} {levels : Nat} {v : Value}
    {e : Expr} (h : v.RepresentsExpr place e) (hv : v.Within levels) :
    e.Sized ∧ e.nesting ≤ levels := by
  match h with
  | .int hfields htext => exact textField_fits hfields htext hv
  | .float hfields htext => exact textField_fits hfields htext hv
  | .string hfields htext => exact textField_fits hfields htext hv
  | .name hfields hident =>
      exact Ident.sized_of_representsIdentFields hident (hfields.within hv)
  | @RepresentsExpr.array _ _ list _ _ hfields hlist hvalues =>
      obtain ⟨-, hwithin⟩ := hfields.within hv list (by simp)
      -- An empty array is written with a level for its list, and was read
      -- with one: in here, the list cannot have been a binary string.
      have hheight := hlist.height_pos
      have hle := hwithin.2
      obtain ⟨hlength, hitems⟩ := hlist.within hwithin
      obtain ⟨hlengths, hsized, hnesting⟩ :=
        fits_of_representsExprs hvalues hitems
      refine ⟨⟨hlengths ▸ hlength, hsized⟩, ?_⟩
      rw [nesting]
      omega
  | @RepresentsExpr.branch _ _ first second third _ _ _ hfields hcondition
      htruthy hfalsy =>
      obtain ⟨hpos, hfirst⟩ := hfields.within hv first (by simp)
      obtain ⟨-, hsecond⟩ := hfields.within hv second (by simp)
      obtain ⟨-, hthird⟩ := hfields.within hv third (by simp)
      have hcondition := fits_of_representsExpr hcondition hfirst
      have htruthy := fits_of_representsExpr htruthy hsecond
      have hfalsy := fits_of_representsExpr hfalsy hthird
      refine ⟨⟨hcondition.1, htruthy.1, hfalsy.1⟩, ?_⟩
      rw [nesting]
      omega
  | .call hfields hcallee hlist hargs =>
      obtain ⟨hsizedCallee, hlevels, hlength, hitems⟩ :=
        callFields_fit (hfields.within hv) hcallee hlist
      obtain ⟨hlengths, hsized, hnesting⟩ :=
        fits_of_representsExprs hargs hitems
      refine ⟨⟨hsizedCallee, hlengths ▸ hlength, hsized⟩, ?_⟩
      rw [nesting]
      omega

theorem fits_of_representsExprs {place : Place} {levels : Nat}
    {items : List Value} {values : List Expr}
    (h : RepresentsExprs place items values)
    (hitems : ∀ item ∈ items, item.Within levels) :
    items.length = values.length ∧ SizedAll values ∧
      nestingOfAll values ≤ levels := by
  match h with
  | .nil => exact ⟨rfl, trivial, Nat.zero_le _⟩
  | .cons hvalue hvalues =>
      obtain ⟨hitem, hitems⟩ := List.forall_mem_cons.mp hitems
      obtain ⟨hsized, hnesting⟩ := fits_of_representsExpr hvalue hitem
      obtain ⟨hlengths, hsizedAll, hnestingAll⟩ :=
        fits_of_representsExprs hvalues hitems
      refine ⟨by simp [hlengths], ⟨hsized, hsizedAll⟩, ?_⟩
      rw [nestingOfAll]
      omega

end

end Expr

/-- What the items of a list represent fits if each item makes it fit. -/
theorem forall₂_fits {α : Type} {R : Value → α → Prop} {Fits : α → Prop}
    {nesting : α → Nat} {levels : Nat} {items : List Value} {as : List α}
    (h : List.Forall₂ R items as)
    (hitems : ∀ item ∈ items, item.Within levels)
    (hfits : ∀ v a, R v a → v.Within levels → Fits a ∧ nesting a ≤ levels) :
    (∀ a ∈ as, Fits a) ∧ (as.map nesting).foldr max 0 ≤ levels := by
  induction h with
  | nil => simp
  | cons hitem _ ih =>
      obtain ⟨hwithin, hitems⟩ := List.forall_mem_cons.mp hitems
      obtain ⟨hfirst, hnesting⟩ := hfits _ _ hitem hwithin
      obtain ⟨hothers, hnestings⟩ := ih hitems
      refine ⟨List.forall_mem_cons.mpr ⟨hfirst, hothers⟩, ?_⟩
      exact Nat.max_le.mpr ⟨hnesting, hnestings⟩

theorem Call.fits_of_representsCall {levels : Nat} {v : Value} {call : Call}
    (h : v.RepresentsCall call) (hv : v.Within levels) :
    call.Sized ∧ call.nesting ≤ levels := by
  obtain ⟨fields, hrecord, hfields⟩ := h
  cases hfields with
  | mk hcallee hlist hargs =>
      obtain ⟨hsizedCallee, hlevels, hlength, hitems⟩ :=
        callFields_fit (hrecord.within hv) hcallee hlist
      obtain ⟨hlengths, hsized, hnesting⟩ :=
        Expr.fits_of_representsExprs hargs hitems
      refine ⟨⟨hsizedCallee, hlengths ▸ hlength, hsized⟩, ?_⟩
      rw [nesting]
      omega

theorem Definition.fits_of_representsDefinition {levels : Nat} {v : Value}
    {d : Definition} (h : v.RepresentsDefinition d) (hv : v.Within levels) :
    d.Sized ∧ d.nesting ≤ levels := by
  obtain ⟨fields, hrecord, hfields⟩ := h
  have hwithin := hrecord.within hv
  cases hfields with
  | @mk name _ _ _ _ _ hname hparamList hparams hbodyList hbody =>
      obtain ⟨hsizedName, hpos⟩ := Ident.fits_of_representsIdent hname
        (hwithin name (by simp)).2
      obtain ⟨hparamCount, hidents⟩ := hparamList.within hwithin (by simp)
      have hparamsFit : (∀ param ∈ d.params, param.Sized) ∧
          (d.params.map fun _ => 1).foldr max 0 ≤ levels - 2 :=
        forall₂_fits hparams hidents
          fun _ _ => Ident.fits_of_representsIdent
      obtain ⟨hcallCount, hcalls⟩ := hbodyList.within hwithin (by simp)
      have hcallsFit : (∀ call ∈ d.body, call.Sized) ∧
          (d.body.map fun call => call.nesting).foldr max 0 ≤ levels - 2 :=
        forall₂_fits hbody hcalls fun _ _ => Call.fits_of_representsCall
      refine ⟨⟨hsizedName, ⟨hparams.length_eq ▸ hparamCount, hparamsFit.1⟩,
        hbody.length_eq ▸ hcallCount, hcallsFit.1⟩, ?_⟩
      rw [nesting]
      omega

namespace Program

theorem fits_of_representsProgram {levels : Nat} {v : Value}
    {program : Program} (h : v.RepresentsProgram program)
    (hv : v.Within levels) :
    program.Sized ∧ program.nesting ≤ max 1 levels := by
  obtain ⟨items, hlist, hdefinitions⟩ := h
  obtain ⟨hlength, hitems⟩ := hlist.within hv
  have hfits : (∀ d ∈ program, d.Sized) ∧
      (program.map fun d => d.nesting).foldr max 0 ≤ levels - 1 :=
    forall₂_fits hdefinitions hitems
      fun _ _ => Definition.fits_of_representsDefinition
  refine ⟨⟨hdefinitions.length_eq ▸ hlength, hfits.1⟩, ?_⟩
  rw [nesting]
  omega

/-- Whatever was read is within all limits of writing and reading. -/
theorem fits_of_ofBytes {bytes : Bytes} {program : Program}
    (h : ofBytes bytes = .ok program) :
    program.Sized ∧ program.nesting ≤ maxNesting := by
  rw [ofBytes_eq_ok_iff_ofBytes?, ofBytes?_eq_some_iff] at h
  obtain ⟨used, rest, v, -, hused, hheight, hprogram⟩ := h
  -- The one level of an empty program is far below the limit.
  exact fits_of_representsProgram hprogram ⟨⟨used, hused⟩, hheight⟩

theorem ofBytes_toBytes_of_fits {program : Program} (hsized : program.Sized)
    (hnesting : program.nesting ≤ maxNesting) :
    ofBytes program.toBytes = .ok program := by
  have hread := ofBytes?_toBytes_append hsized []
  rw [if_pos hnesting, List.append_nil] at hread
  exact ofBytes_eq_ok_iff_ofBytes?.mpr hread

/-- The bytes that are written for the program in some bytes. -/
def normalise (bytes : Bytes) : Except Error Bytes :=
  (ofBytes bytes).map toBytes

/--
A program that was read, from bytes of whatever form, is read again from the
bytes that are written for it; so these are their own normal form.
-/
theorem ofBytes_toBytes_of_ofBytes (bytes : Bytes) (program : Program)
    (h : ofBytes bytes = .ok program) :
    ofBytes program.toBytes = .ok program ∧
      normalise bytes = .ok program.toBytes ∧
      normalise program.toBytes = .ok program.toBytes := by
  obtain ⟨hsized, hnesting⟩ := fits_of_ofBytes h
  have hagain := ofBytes_toBytes_of_fits hsized hnesting
  refine ⟨hagain, ?_, ?_⟩
  · rw [normalise, h]
    rfl
  · rw [normalise, hagain]
    rfl

/-- A program with a long header and something after its end.  Its definition
is a map: the body by number, a key of no field, and the name by a binary
string, with a wide line.  The call in the body is an array without arguments,
and its name one without a line. -/
def mixedForms : Bytes :=
  [0xdc, 0x00, 0x01, 0x83,
    0x02, 0x91, 0x91, 0x91, 0xc4, 0x01, 0x67,
    0xa2, 0x7a, 0x7a, 0xc0,
    0xc4, 0x04, 0x6e, 0x61, 0x6d, 0x65,
      0x92, 0xa1, 0x66, 0xcf, 0x00, 0x00, 0x00, 0x00, 0x00, 0x00, 0x00, 0x05,
    0xc1]

theorem ofBytes_toBytes_of_ofBytes_mixedForms :
    ofBytes mixedForms = .ok [⟨⟨"f", 5⟩, [], [⟨⟨"g", 0⟩, []⟩]⟩] ∧
      normalise mixedForms =
        .ok (toBytes [⟨⟨"f", 5⟩, [], [⟨⟨"g", 0⟩, []⟩]⟩]) ∧
      ofBytes (toBytes [⟨⟨"f", 5⟩, [], [⟨⟨"g", 0⟩, []⟩]⟩]) =
        .ok [⟨⟨"f", 5⟩, [], [⟨⟨"g", 0⟩, []⟩]⟩] := by
  have hread : ofBytes mixedForms =
      .ok [⟨⟨"f", 5⟩, [], [⟨⟨"g", 0⟩, []⟩]⟩] := by rfl
  obtain ⟨hagain, hnormal, -⟩ := ofBytes_toBytes_of_ofBytes _ _ hread
  exact ⟨hread, hnormal, hagain⟩

end Program

end Lowering
