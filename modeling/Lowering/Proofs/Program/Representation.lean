import Lowering.Program.Decoding
import Lowering.Proofs.MessagePack.Forms
import Lowering.Proofs.MessagePack.Serialisation

/-!
# Which values represent a program

The format of programs as a relation between MessagePack values and programs.
It is put together from the forms of texts, records and lists, one rule for
each kind of expression, and says nothing about how a program is found.

Two things depend on the place where something stands.  Within an expression a
number is a key or a kind only in some of its forms, and an empty list has to
be an array.  The fields of an expression are within it, its own kind is not:
the kind of an outermost expression may be a number of any form.

## Main results

* `Expr.ofValue?_eq_some_iff`, `Program.ofValue?_eq_some_iff` — a value is read
  as an expression, or as a program, exactly when it represents it.
* `Program.ofBytes_eq_ok_iff` — bytes are read as a program exactly when they
  start with a serialisation of a value that represents it and does not nest
  too deep.
-/

namespace Lowering

namespace MessagePack.Value

/-! ## Lines and lists that may be missing -/

/-- A line is an integer of any form; a missing one is 0. -/
inductive RepresentsLine : Option Value → UInt32 → Prop
  | missing : RepresentsLine none 0
  | unsigned {form : Unsigned} {line : UInt32} :
      RepresentsLine (some (.unsigned form line.toNat)) line
  | signed {form : Signed} {line : UInt32} :
      RepresentsLine (some (.signed form line.toNat)) line

/-- A list and its items; a missing list has none. -/
inductive IsListOrMissing (place : Place) : Option Value → List Value → Prop
  | missing : IsListOrMissing place none []
  | given {v : Value} {items : List Value} :
      v.IsList place items → IsListOrMissing place (some v) items

/-! ## Identifiers -/

inductive RepresentsIdentFields : List (Option Value) → Ident → Prop
  | mk {text : Value} {line : Option Value} {ident : Ident} :
      text.RepresentsText ident.text → RepresentsLine line ident.line →
      RepresentsIdentFields [some text, line] ident

def RepresentsIdent (place : Place) (v : Value) (ident : Ident) : Prop :=
  ∃ fields, v.IsRecord place Ident.fieldNames fields ∧
    RepresentsIdentFields fields ident

/-! ## Expressions -/

/-- A value with a tag taken out of it, and what is left.  In a map just one
key is `type`. -/
inductive IsTagged : Value → Value → Value → Prop
  | array {tag : Value} {items : List Value} :
      IsTagged (.array (tag :: items)) tag (.array items)
  | map {before after : List (Value × Value)} {key tag : Value} :
      key.RepresentsText "type" →
      (∀ entry ∈ before ++ after, ¬ entry.1.RepresentsText "type") →
      IsTagged (.map (before ++ (key, tag) :: after)) tag
        (.map (before ++ after))

/-- A kind is given by its label or by its number. -/
inductive RepresentsKind (place : Place) : Value → Expr.Kind → Prop
  | label {tag : Value} {kind : Expr.Kind} :
      tag.RepresentsText kind.label → RepresentsKind place tag kind
  | index {form : Unsigned} {n : Nat} {kind : Expr.Kind} :
      place.takes form = true → Expr.Kind.all[n]? = some kind →
      RepresentsKind place (.unsigned form n) kind

/-- The fields of an expression of some kind. -/
def HasFields (place : Place) (kind : Expr.Kind) (v : Value)
    (fields : List (Option Value)) : Prop :=
  ∃ tag record, v.IsTagged tag record ∧ tag.RepresentsKind place kind ∧
    record.IsRecord .inside kind.fieldNames fields

mutual

inductive RepresentsExpr : Place → Value → Expr → Prop
  | int {place : Place} {v text : Value} {digits : String} :
      v.HasFields place .int [some text] → text.RepresentsText digits →
      RepresentsExpr place v (.int digits)
  | float {place : Place} {v text : Value} {digits : String} :
      v.HasFields place .float [some text] → text.RepresentsText digits →
      RepresentsExpr place v (.float digits)
  | string {place : Place} {v text : Value} {content : String} :
      v.HasFields place .string [some text] → text.RepresentsText content →
      RepresentsExpr place v (.string content)
  | name {place : Place} {v : Value} {fields : List (Option Value)}
      {ident : Ident} :
      v.HasFields place .name fields → RepresentsIdentFields fields ident →
      RepresentsExpr place v (.name ident)
  | array {place : Place} {v list : Value} {items : List Value}
      {values : List Expr} :
      v.HasFields place .array [some list] → list.IsList .inside items →
      RepresentsExprs .inside items values →
      RepresentsExpr place v (.array values)
  | branch {place : Place} {v first second third : Value}
      {condition truthy falsy : Expr} :
      v.HasFields place .branch [some first, some second, some third] →
      RepresentsExpr .inside first condition →
      RepresentsExpr .inside second truthy →
      RepresentsExpr .inside third falsy →
      RepresentsExpr place v (.branch condition truthy falsy)
  | call {place : Place} {v name : Value} {list : Option Value}
      {items : List Value} {callee : Ident} {args : List Expr} :
      v.HasFields place .call [some name, list] →
      name.RepresentsIdent .inside callee →
      IsListOrMissing .inside list items →
      RepresentsExprs .inside items args →
      RepresentsExpr place v (.call callee args)

inductive RepresentsExprs : Place → List Value → List Expr → Prop
  | nil {place : Place} : RepresentsExprs place [] []
  | cons {place : Place} {v : Value} {items : List Value} {e : Expr}
      {values : List Expr} :
      RepresentsExpr place v e → RepresentsExprs place items values →
      RepresentsExprs place (v :: items) (e :: values)

end

/-! ## Calls, definitions and programs -/

inductive RepresentsCallFields : List (Option Value) → Call → Prop
  | mk {name : Value} {list : Option Value} {items : List Value} {call : Call} :
      name.RepresentsIdent .outside call.callee →
      IsListOrMissing .outside list items →
      RepresentsExprs .outside items call.args →
      RepresentsCallFields [some name, list] call

def RepresentsCall (v : Value) (call : Call) : Prop :=
  ∃ fields, v.IsRecord .outside Call.fieldNames fields ∧
    RepresentsCallFields fields call

inductive RepresentsDefinitionFields :
    List (Option Value) → Definition → Prop
  | mk {name : Value} {params body : Option Value}
      {idents calls : List Value} {d : Definition} :
      name.RepresentsIdent .outside d.name →
      IsListOrMissing .outside params idents →
      List.Forall₂ (RepresentsIdent .outside) idents d.params →
      IsListOrMissing .outside body calls →
      List.Forall₂ RepresentsCall calls d.body →
      RepresentsDefinitionFields [some name, params, body] d

def RepresentsDefinition (v : Value) (d : Definition) : Prop :=
  ∃ fields, v.IsRecord .outside Definition.fieldNames fields ∧
    RepresentsDefinitionFields fields d

/-- A program is the list of its definitions. -/
def RepresentsProgram (v : Value) (program : Program) : Prop :=
  ∃ items, v.IsList .outside items ∧
    List.Forall₂ RepresentsDefinition items program

theorem representsExprs_iff_forall₂ {place : Place} {items : List Value}
    {values : List Expr} :
    RepresentsExprs place items values ↔
      List.Forall₂ (RepresentsExpr place) items values := by
  induction items generalizing values with
  | nil =>
      rw [List.forall₂_nil_left_iff]
      constructor
      · intro h
        cases h
        rfl
      · intro h
        subst h
        exact .nil
  | cons v items ih =>
      rw [List.forall₂_cons_left_iff]
      constructor
      · intro h
        cases h
        exact ⟨_, _, ‹_›, ih.mp ‹_›, rfl⟩
      · intro h
        obtain ⟨e, values, he, hvalues, rfl⟩ := h
        exact .cons he (ih.mpr hvalues)

end MessagePack.Value

/-! ## Reading finds what is represented -/

open MessagePack (Place Value mapM_eq_some_iff filter_eq_singleton_iff
  filter_not_eq_append)
open MessagePack.Value

/-- The numbers of lines are those that a line can hold. -/
theorem line_eq_some_iff {number : Int} {line : UInt32} :
    (if 0 ≤ number ∧ number < UInt32.size then
        some (UInt32.ofNat number.toNat)
      else none) = some line ↔ number = line.toNat := by
  have hlt : line.toNat < UInt32.size := line.toNat_lt
  constructor
  · intro h
    split at h
    · rename_i hrange
      cases h
      have hnat : number.toNat < UInt32.size := by omega
      rw [UInt32.toNat_ofNat_of_lt' hnat, Int.toNat_of_nonneg hrange.1]
    · cases h
  · intro h
    have hrange : 0 ≤ number ∧ number < UInt32.size := by omega
    rw [if_pos hrange, h, Int.toNat_natCast, UInt32.ofNat_toNat]

theorem lineOfValue?_some_eq_some_iff {v : Value} {line : UInt32} :
    lineOfValue? (some v) = some line ↔ v.int? = some (line.toNat : Int) := by
  rw [lineOfValue?]
  cases v.int? with
  | none => simp
  | some number => simpa using line_eq_some_iff

theorem lineOfValue?_eq_some_iff {given : Option Value} {line : UInt32} :
    lineOfValue? given = some line ↔ RepresentsLine given line := by
  constructor
  · intro h
    cases given with
    | none =>
        cases h
        exact .missing
    | some v =>
        have hint := lineOfValue?_some_eq_some_iff.mp h
        cases v with
        | unsigned form n =>
            have hn : n = line.toNat := by
              simpa [int?, Int.natCast_inj] using hint
            rw [hn]
            exact .unsigned
        | signed form i =>
            have hi : i = line.toNat := by simpa [int?] using hint
            rw [hi]
            exact .signed
        | _ => simp [int?] at hint
  · intro h
    cases h with
    | missing => rfl
    | unsigned => exact lineOfValue?_some_eq_some_iff.mpr rfl
    | signed => exact lineOfValue?_some_eq_some_iff.mpr rfl

theorem itemsOrNone?_eq_some_iff {place : Place} {given : Option Value}
    {items : List Value} :
    itemsOrNone? place given = some items ↔
      IsListOrMissing place given items := by
  cases given with
  | none =>
      constructor
      · intro h
        cases h
        exact .missing
      · intro h
        cases h
        rfl
  | some v =>
      rw [itemsOrNone?, items?_eq_some_iff]
      constructor
      · intro h
        exact .given h
      · intro h
        cases h with
        | given h => exact h

/-- A list of values is read one by one. -/
theorem mapM_eq_some_iff_forall₂ {α : Type} {f : Value → Option α}
    {R : Value → α → Prop} (hf : ∀ v a, f v = some a ↔ R v a)
    {items : List Value} {results : List α} :
    items.mapM f = some results ↔ List.Forall₂ R items results := by
  rw [mapM_eq_some_iff]
  constructor
  · intro h
    exact h.imp fun v a => (hf v a).mp
  · intro h
    exact h.imp fun v a => (hf v a).mpr

namespace Ident

theorem ofFields?_eq_some_iff {fields : List (Option Value)} {ident : Ident} :
    ofFields? fields = some ident ↔ RepresentsIdentFields fields ident := by
  constructor
  · intro h
    unfold ofFields? at h
    split at h
    · simp only [Option.bind_eq_bind, Option.bind_eq_some_iff,
        Option.some.injEq, text?_eq_some_iff, lineOfValue?_eq_some_iff] at h
      obtain ⟨text, htext, line, hline, rfl⟩ := h
      exact .mk htext hline
    · cases h
  · intro h
    cases h with
    | mk htext hline =>
        simp [ofFields?, text?_eq_some_iff.mpr htext,
          lineOfValue?_eq_some_iff.mpr hline]

theorem ofValue?_eq_some_iff {place : Place} {v : Value} {ident : Ident} :
    ofValue? place v = some ident ↔ v.RepresentsIdent place ident := by
  have hnodup : fieldNames.Nodup := by decide
  simp only [ofValue?, Option.bind_eq_bind, Option.bind_eq_some_iff,
    fields?_eq_some_iff hnodup, ofFields?_eq_some_iff, RepresentsIdent]

end Ident

namespace Expr

theorem Kind.label_inj {a b : Kind} : a.label = b.label ↔ a = b := by
  cases a <;> cases b <;> decide

theorem Kind.nodup_fieldNames (kind : Kind) : kind.fieldNames.Nodup := by
  cases kind <;> decide

/-- No two kinds share a label, so the first kind found is the only one. -/
theorem Kind.find?_label_eq_some_iff {content : Bytes} {kind : Kind} :
    (Kind.all.find? fun kind => Utf8.encode kind.label == content) =
      some kind ↔ content = Utf8.encode kind.label := by
  constructor
  · intro h
    have hlabel := List.find?_some h
    exact (beq_iff_eq.mp hlabel).symm
  · intro h
    have hfound : (Kind.all.find? fun kind =>
        Utf8.encode kind.label == content).isSome = true := by
      rw [List.find?_isSome]
      exact ⟨kind, Kind.mem_all kind, by simp [h]⟩
    obtain ⟨found, hfound⟩ := Option.isSome_iff_exists.mp hfound
    have hlabel := List.find?_some hfound
    have hsame : found.label = kind.label := by
      rw [h] at hlabel
      exact Utf8.encode_inj.mp (beq_iff_eq.mp hlabel)
    rw [hfound, Kind.label_inj.mp hsame]

theorem Kind.ofValue?_eq_some_iff {place : Place} {tag : Value} {kind : Kind} :
    Kind.ofValue? place tag = some kind ↔ tag.RepresentsKind place kind := by
  constructor
  · intro h
    unfold Kind.ofValue? at h
    split at h
    · split at h
      · rename_i hform
        exact .index hform h
      · cases h
    · simp only [Option.bind_eq_bind, Option.bind_eq_some_iff,
        Kind.find?_label_eq_some_iff] at h
      obtain ⟨content, hcontent, rfl⟩ := h
      exact .label (content?_eq_encode_iff.mp hcontent)
  · intro h
    cases h with
    | index hform hkind => simp [Kind.ofValue?, hform, hkind]
    | label htext =>
        have hfind := Kind.find?_label_eq_some_iff.mpr
          (rfl : Utf8.encode kind.label = Utf8.encode kind.label)
        rcases htext with rfl | rfl
        · exact hfind
        · exact hfind

theorem isTypeKey_iff {key : Value} :
    isTypeKey key = true ↔ key.RepresentsText "type" := by
  rw [isTypeKey, beq_iff_eq, content?_eq_encode_iff]

theorem untag?_eq_some_iff {v tag record : Value} :
    untag? v = some (tag, record) ↔ v.IsTagged tag record := by
  constructor
  · intro h
    unfold untag? at h
    split at h
    · cases h
      exact .array
    · rw [List.partition_eq_filter_filter] at h
      split at h
      · rename_i key tag _ hpartition
        cases h
        obtain ⟨htype, rfl⟩ := Prod.mk.inj hpartition
        obtain ⟨before, after, rfl, hkey, hothers⟩ :=
          filter_eq_singleton_iff.mp htype
        rw [filter_not_eq_append (fun entry : Value × Value =>
          isTypeKey entry.1) (key, tag) hkey hothers]
        simp only [isTypeKey_iff] at hkey hothers
        exact .map hkey hothers
      · cases h
    · cases h
  · intro h
    cases h with
    | array => rfl
    | @map before after key tag hkey hothers =>
        simp only [← isTypeKey_iff] at hkey hothers
        have htype : (before ++ (key, tag) :: after).filter
            (fun entry => isTypeKey entry.1) = [(key, tag)] :=
          filter_eq_singleton_iff.mpr ⟨before, after, rfl, hkey, hothers⟩
        have hfields := filter_not_eq_append (fun entry : Value × Value =>
          isTypeKey entry.1) (key, tag) hkey hothers
        rw [untag?, List.partition_eq_filter_filter, htype, hfields]

theorem mem_children_of_isTagged {v tag record : Value}
    (h : v.IsTagged tag record) {x : Value} (hx : x ∈ record.children) :
    x ∈ v.children := by
  cases h with
  | array => exact List.mem_cons_of_mem _ hx
  | map _ _ =>
      simp only [children, List.map_append, List.map_cons, List.mem_append,
        List.mem_cons] at hx ⊢
      tauto

theorem mem_children_of_hasFields {place : Place} {kind : Kind} {v : Value}
    {fields : List (Option Value)} (h : v.HasFields place kind fields)
    {x : Value} (hx : some x ∈ fields) : x ∈ v.children := by
  obtain ⟨tag, record, htagged, -, hrecord⟩ := h
  exact mem_children_of_isTagged htagged (hrecord.mem_children hx)

theorem height_pos_of_hasFields {place : Place} {kind : Kind} {v : Value}
    {fields : List (Option Value)} (h : v.HasFields place kind fields) :
    0 < v.height := by
  obtain ⟨tag, record, htagged, -, -⟩ := h
  cases htagged with
  | array => simp [height]
  | map _ _ => simp [height]

theorem hasFields_of_representsExpr {place : Place} {v : Value} {e : Expr}
    (h : v.RepresentsExpr place e) :
    ∃ fields, v.HasFields place e.kind fields := by
  cases h with
  | int hfields => exact ⟨_, hfields⟩
  | float hfields => exact ⟨_, hfields⟩
  | string hfields => exact ⟨_, hfields⟩
  | name hfields => exact ⟨_, hfields⟩
  | array hfields => exact ⟨_, hfields⟩
  | branch hfields => exact ⟨_, hfields⟩
  | call hfields => exact ⟨_, hfields⟩

/-- The fields of an expression are found. -/
theorem hasFields_iff {place : Place} {kind : Kind} {v : Value}
    {fields : List (Option Value)} :
    v.HasFields place kind fields ↔
      ∃ tag record, untag? v = some (tag, record) ∧
        Kind.ofValue? place tag = some kind ∧
        record.fields? .inside kind.fieldNames = some fields := by
  simp only [HasFields, untag?_eq_some_iff, Kind.ofValue?_eq_some_iff,
    fields?_eq_some_iff kind.nodup_fieldNames]

theorem representsExpr_of_ofValueWithin {levels : Nat} {place : Place}
    {v : Value} {e : Expr} (h : ofValueWithin levels place v = some e) :
    v.RepresentsExpr place e := by
  induction levels generalizing place v e with
  | zero => cases h
  | succ levels ih =>
      have hmany : ∀ {items : List Value} {values : List Expr},
          items.mapM (ofValueWithin levels .inside) = some values →
          RepresentsExprs .inside items values := by
        intro items values hvalues
        rw [representsExprs_iff_forall₂]
        exact (mapM_eq_some_iff.mp hvalues).imp fun _ _ => ih
      simp only [ofValueWithin, Option.bind_eq_bind,
        Option.bind_eq_some_iff, Prod.exists] at h
      obtain ⟨tag, record, htag, kind, hkind, fields, hrecord, h⟩ := h
      have hfields : v.HasFields place kind fields :=
        hasFields_iff.mpr ⟨tag, record, htag, hkind, hrecord⟩
      -- One goal for each kind with as many fields as it has.
      split at h
      all_goals
        simp only [Option.bind_eq_some_iff, Option.some.injEq, reduceCtorEq,
          text?_eq_some_iff, Ident.ofFields?_eq_some_iff,
          Ident.ofValue?_eq_some_iff, items?_eq_some_iff,
          itemsOrNone?_eq_some_iff] at h
      · obtain ⟨digits, htext, rfl⟩ := h
        exact .int hfields htext
      · obtain ⟨digits, htext, rfl⟩ := h
        exact .float hfields htext
      · obtain ⟨content, htext, rfl⟩ := h
        exact .string hfields htext
      · obtain ⟨ident, hident, rfl⟩ := h
        exact .name hfields hident
      · obtain ⟨items, hitems, values, hvalues, rfl⟩ := h
        exact .array hfields hitems (hmany hvalues)
      · obtain ⟨condition, hcondition, truthy, htruthy, falsy, hfalsy, rfl⟩ := h
        exact .branch hfields (ih hcondition) (ih htruthy) (ih hfalsy)
      · obtain ⟨callee, hcallee, items, hitems, args, hargs, rfl⟩ := h
        exact .call hfields hcallee hitems (hmany hargs)

theorem ofValueWithin_of_representsExpr {levels : Nat} {place : Place}
    {v : Value} {e : Expr} (h : v.RepresentsExpr place e)
    (hheight : v.height ≤ levels) : ofValueWithin levels place v = some e := by
  induction levels generalizing place v e with
  | zero =>
      obtain ⟨fields, hfields⟩ := hasFields_of_representsExpr h
      have hpos := height_pos_of_hasFields hfields
      omega
  | succ levels ih =>
      have hchild : ∀ {x : Value}, x ∈ v.children → x.height ≤ levels := by
        intro x hx
        have := height_lt_of_mem_children hx
        omega
      have hmany : ∀ {list : Value} {items : List Value} {values : List Expr},
          list ∈ v.children → list.IsList .inside items →
          RepresentsExprs .inside items values →
          items.mapM (ofValueWithin levels .inside) = some values := by
        intro list items values hlist hitems hvalues
        rw [mapM_eq_some_iff, List.forall₂_iff_zip]
        rw [representsExprs_iff_forall₂, List.forall₂_iff_zip] at hvalues
        refine ⟨hvalues.1, fun {item value} hmem => ih (hvalues.2 hmem) ?_⟩
        have hitem := height_lt_of_mem_children
          (hitems.mem_children (List.of_mem_zip hmem).1)
        have := hchild hlist
        omega
      cases h with
      | int hfields htext =>
          obtain ⟨tag, record, htag, hkind, hrecord⟩ := hasFields_iff.mp hfields
          simp [ofValueWithin, htag, hkind, hrecord,
            text?_eq_some_iff.mpr htext]
      | float hfields htext =>
          obtain ⟨tag, record, htag, hkind, hrecord⟩ := hasFields_iff.mp hfields
          simp [ofValueWithin, htag, hkind, hrecord,
            text?_eq_some_iff.mpr htext]
      | string hfields htext =>
          obtain ⟨tag, record, htag, hkind, hrecord⟩ := hasFields_iff.mp hfields
          simp [ofValueWithin, htag, hkind, hrecord,
            text?_eq_some_iff.mpr htext]
      | name hfields hident =>
          obtain ⟨tag, record, htag, hkind, hrecord⟩ := hasFields_iff.mp hfields
          simp [ofValueWithin, htag, hkind, hrecord,
            Ident.ofFields?_eq_some_iff.mpr hident]
      | array hfields hitems hvalues =>
          have hlist := mem_children_of_hasFields hfields
            (List.mem_singleton.mpr rfl)
          obtain ⟨tag, record, htag, hkind, hrecord⟩ := hasFields_iff.mp hfields
          simp [ofValueWithin, htag, hkind, hrecord,
            items?_eq_some_iff.mpr hitems, hmany hlist hitems hvalues]
      | @branch _ _ first second third _ _ _ hfields hcondition htruthy hfalsy =>
          have hfirst : first.height ≤ levels :=
            hchild (mem_children_of_hasFields hfields (by simp))
          have hsecond : second.height ≤ levels :=
            hchild (mem_children_of_hasFields hfields (by simp))
          have hthird : third.height ≤ levels :=
            hchild (mem_children_of_hasFields hfields (by simp))
          obtain ⟨tag, record, htag, hkind, hrecord⟩ := hasFields_iff.mp hfields
          simp [ofValueWithin, htag, hkind, hrecord, ih hcondition hfirst,
            ih htruthy hsecond, ih hfalsy hthird]
      | @call _ _ name list items callee args hfields hcallee hitems hargs =>
          have hargs : items.mapM (ofValueWithin levels .inside) = some args := by
            cases hitems with
            | missing =>
                cases hargs
                rfl
            | given hitems =>
                exact hmany (mem_children_of_hasFields hfields (by simp))
                  hitems hargs
          obtain ⟨tag, record, htag, hkind, hrecord⟩ := hasFields_iff.mp hfields
          simp [ofValueWithin, htag, hkind, hrecord,
            Ident.ofValue?_eq_some_iff.mpr hcallee,
            itemsOrNone?_eq_some_iff.mpr hitems, hargs]

theorem ofValue?_eq_some_iff {place : Place} {v : Value} {e : Expr} :
    ofValue? place v = some e ↔ v.RepresentsExpr place e := by
  constructor
  · intro h
    exact representsExpr_of_ofValueWithin h
  · intro h
    exact ofValueWithin_of_representsExpr h (Nat.le_refl _)

end Expr

namespace Call

theorem ofFields?_eq_some_iff {fields : List (Option Value)} {call : Call} :
    ofFields? fields = some call ↔ RepresentsCallFields fields call := by
  have hargs : ∀ {items : List Value} {args : List Expr},
      items.mapM (Expr.ofValue? .outside) = some args ↔
        RepresentsExprs .outside items args := by
    intro items args
    rw [representsExprs_iff_forall₂]
    exact mapM_eq_some_iff_forall₂ fun _ _ => Expr.ofValue?_eq_some_iff
  constructor
  · intro h
    unfold ofFields? at h
    split at h
    · simp only [Option.bind_eq_bind, Option.bind_eq_some_iff,
        Option.some.injEq, Ident.ofValue?_eq_some_iff,
        itemsOrNone?_eq_some_iff, hargs] at h
      obtain ⟨callee, hcallee, items, hitems, args, hvalues, rfl⟩ := h
      exact .mk hcallee hitems hvalues
    · cases h
  · intro h
    cases h with
    | mk hcallee hitems hvalues =>
        simp [ofFields?, Ident.ofValue?_eq_some_iff.mpr hcallee,
          itemsOrNone?_eq_some_iff.mpr hitems, hargs.mpr hvalues]

theorem ofValue?_eq_some_iff {v : Value} {call : Call} :
    ofValue? v = some call ↔ v.RepresentsCall call := by
  have hnodup : fieldNames.Nodup := by decide
  simp only [ofValue?, Option.bind_eq_bind, Option.bind_eq_some_iff,
    fields?_eq_some_iff hnodup, ofFields?_eq_some_iff, RepresentsCall]

end Call

namespace Definition

theorem ofFields?_eq_some_iff {fields : List (Option Value)}
    {d : Definition} :
    ofFields? fields = some d ↔ RepresentsDefinitionFields fields d := by
  have hparams : ∀ {items : List Value} {params : List Ident},
      items.mapM (Ident.ofValue? .outside) = some params ↔
        List.Forall₂ (RepresentsIdent .outside) items params :=
    mapM_eq_some_iff_forall₂ fun _ _ => Ident.ofValue?_eq_some_iff
  have hbody : ∀ {items : List Value} {body : List Call},
      items.mapM Call.ofValue? = some body ↔
        List.Forall₂ RepresentsCall items body :=
    mapM_eq_some_iff_forall₂ fun _ _ => Call.ofValue?_eq_some_iff
  constructor
  · intro h
    unfold ofFields? at h
    split at h
    · simp only [Option.bind_eq_bind, Option.bind_eq_some_iff,
        Option.some.injEq, Ident.ofValue?_eq_some_iff,
        itemsOrNone?_eq_some_iff, hparams, hbody] at h
      obtain ⟨name, hname, idents, hidents, calls, hcalls, params, hparams,
        body, hbody, rfl⟩ := h
      exact .mk hname hidents hparams hcalls hbody
    · cases h
  · intro h
    cases h with
    | mk hname hidents hidents' hcalls hcalls' =>
        simp [ofFields?, Ident.ofValue?_eq_some_iff.mpr hname,
          itemsOrNone?_eq_some_iff.mpr hidents, hparams.mpr hidents',
          itemsOrNone?_eq_some_iff.mpr hcalls, hbody.mpr hcalls']

theorem ofValue?_eq_some_iff {v : Value} {d : Definition} :
    ofValue? v = some d ↔ v.RepresentsDefinition d := by
  have hnodup : fieldNames.Nodup := by decide
  simp only [ofValue?, Option.bind_eq_bind, Option.bind_eq_some_iff,
    fields?_eq_some_iff hnodup, ofFields?_eq_some_iff, RepresentsDefinition]

end Definition

namespace Program

theorem ofValue?_eq_some_iff {v : Value} {program : Program} :
    ofValue? v = some program ↔ v.RepresentsProgram program := by
  simp only [ofValue?, Option.bind_eq_bind, Option.bind_eq_some_iff,
    items?_eq_some_iff, RepresentsProgram,
    mapM_eq_some_iff_forall₂ fun _ _ => Definition.ofValue?_eq_some_iff]

theorem ofBytes?_eq_some_iff {bytes : Bytes} {program : Program} :
    ofBytes? bytes = some program ↔
      ∃ used rest v, bytes = used ++ rest ∧ Serialises v used ∧
        v.height ≤ maxNesting ∧ v.RepresentsProgram program := by
  simp only [ofBytes?, Option.bind_eq_bind, Option.bind_eq_some_iff,
    Prod.exists, ofValue?_eq_some_iff, MessagePack.Value.read_eq_some_iff]
  constructor
  · intro h
    obtain ⟨v, rest, ⟨used, hused, hheight, hbytes⟩, hprogram⟩ := h
    exact ⟨used, rest, v, hbytes, hused, hheight, hprogram⟩
  · intro h
    obtain ⟨used, rest, v, hbytes, hused, hheight, hprogram⟩ := h
    exact ⟨v, rest, ⟨used, hused, hheight, hbytes⟩, hprogram⟩

theorem ofBytes_eq_ok_iff_ofBytes? {bytes : Bytes} {program : Program} :
    ofBytes bytes = .ok program ↔ ofBytes? bytes = some program := by
  rw [ofBytes]
  cases ofBytes? bytes <;> simp

/--
Reading accepts exactly the format: bytes give a program if and only if they
start with a serialisation, in headers of any width, of a value that nests at
most 1023 deep and represents the program.
-/
theorem ofBytes_eq_ok_iff (bytes : Bytes) (program : Program) :
    ofBytes bytes = .ok program ↔
      ∃ used rest v, bytes = used ++ rest ∧ Serialises v used ∧
        v.height ≤ 1023 ∧ v.RepresentsProgram program := by
  rw [ofBytes_eq_ok_iff_ofBytes?, ofBytes?_eq_some_iff, maxNesting]

end Program

end Lowering
