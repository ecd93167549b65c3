import Lowering.Proofs.MessagePack.Writing
import Lowering.Proofs.Program.Representation
import Mathlib.Data.List.Nodup

/-!
# Programs survive writing and reading

The value that is written for a program represents it, its bytes are one of the
serialisations of this value, and so reading gives the program back, whatever
follows.  There are two limits.  Sizes have to fit a header, which `Sized` says
of all strings and lists of a program; and the value must not nest deeper than
the reader allows.  How deep it nests is computed from the program alone, by
`Program.nesting`.

## Main results

* `Program.representsProgram_toValue` — the value of a program represents it.
* `Program.height_toValue` — it nests as deep as `Program.nesting` says.
* `Program.serialises_toBytes` — the bytes of a program serialise its value.
* `Program.ofBytes_toBytes_append` — a program is read back exactly when its
  nesting is within the limit.
-/

namespace Lowering

open MessagePack (Place Value)
open MessagePack.Value

/-! ## Sizes that fit a header -/

def Ident.Sized (ident : Ident) : Prop := ident.text.utf8ByteSize < 2 ^ 32

mutual

/-- All strings have fewer than `2 ^ 32` bytes, and all lists fewer than
`2 ^ 32` items. -/
def Expr.Sized : Expr → Prop
  | .int digits => digits.utf8ByteSize < 2 ^ 32
  | .float digits => digits.utf8ByteSize < 2 ^ 32
  | .string content => content.utf8ByteSize < 2 ^ 32
  | .name ident => ident.Sized
  | .array values => values.length < 2 ^ 32 ∧ Expr.SizedAll values
  | .branch condition truthy falsy =>
      condition.Sized ∧ truthy.Sized ∧ falsy.Sized
  | .call callee args =>
      callee.Sized ∧ args.length < 2 ^ 32 ∧ Expr.SizedAll args

def Expr.SizedAll : List Expr → Prop
  | [] => True
  | value :: values => value.Sized ∧ Expr.SizedAll values

end

def Call.Sized (call : Call) : Prop :=
  call.callee.Sized ∧ call.args.length < 2 ^ 32 ∧ Expr.SizedAll call.args

def Definition.Sized (d : Definition) : Prop :=
  d.name.Sized ∧
    (d.params.length < 2 ^ 32 ∧ ∀ param ∈ d.params, param.Sized) ∧
    (d.body.length < 2 ^ 32 ∧ ∀ call ∈ d.body, call.Sized)

def Program.Sized (program : Program) : Prop :=
  program.length < 2 ^ 32 ∧ ∀ d ∈ program, d.Sized

/-! ## How deep a program nests -/

mutual

/-- The levels of an expression: one for its record, and one more for the list
of an array or a call. -/
def Expr.nesting : Expr → Nat
  | .int _ => 1
  | .float _ => 1
  | .string _ => 1
  | .name _ => 1
  | .array values => 2 + Expr.nestingOfAll values
  | .branch condition truthy falsy =>
      1 + max condition.nesting (max truthy.nesting falsy.nesting)
  | .call _ args => 2 + Expr.nestingOfAll args

/-- The levels of the deepest expression. -/
def Expr.nestingOfAll : List Expr → Nat
  | [] => 0
  | value :: values => max value.nesting (Expr.nestingOfAll values)

end

/-- A record, in it the name and the list of arguments, and then these. -/
def Call.nesting (call : Call) : Nat :=
  2 + Expr.nestingOfAll call.args

/-- A record, in it the name and two lists, and then the parameters, one level
each, and the calls. -/
def Definition.nesting (d : Definition) : Nat :=
  2 + max ((d.params.map fun _ => 1).foldr max 0)
    ((d.body.map fun call => call.nesting).foldr max 0)

def Program.nesting (program : Program) : Nat :=
  1 + (program.map fun d => d.nesting).foldr max 0

/-! ## Records as they are written -/

theorem Utf8.length_encode (text : String) :
    (Utf8.encode text).length = text.utf8ByteSize := by
  rw [Utf8.encode, Array.length_toList]
  rfl

theorem isWritten_ofString {text : String} (h : text.utf8ByteSize < 2 ^ 32) :
    (Value.ofString text).IsWritten := by
  refine isWritten_str ?_
  rwa [Utf8.length_encode]

theorem isWritten_recordValue {names : List String}
    {fields : List (String × Value)} (hnames : fields.map Prod.fst = names)
    (hlength : names.length < 2 ^ 32)
    (hsizes : ∀ name ∈ names, name.utf8ByteSize < 2 ^ 32)
    (hvalues : ∀ field ∈ fields, field.2.IsWritten) :
    (recordValue fields).IsWritten := by
  subst hnames
  refine isWritten_map (by simpa using hlength) ?_
  intro entry hentry
  obtain ⟨field, hfield, rfl⟩ := List.mem_map.mp hentry
  have hname := hsizes field.1 (List.mem_map_of_mem hfield)
  exact ⟨isWritten_ofString hname, hvalues field hfield⟩

theorem height_ofNat (n : Nat) : (Value.ofNat n).height = 0 := by
  unfold Value.ofNat
  repeat' split
  all_goals rfl

theorem heightOfItems_map {α : Type} (f : α → Value) (items : List α) :
    heightOfItems (items.map f) =
      (items.map fun item => (f item).height).foldr max 0 := by
  induction items with
  | nil => rfl
  | cons item items ih =>
      rw [List.map_cons, heightOfItems, ih, List.map_cons, List.foldr_cons]

/-- The names of the fields add nothing to the nesting of a record. -/
theorem height_recordValue (fields : List (String × Value)) :
    (recordValue fields).height =
      (fields.map fun field => field.2.height).foldr max 0 + 1 := by
  rw [recordValue, height]
  congr 1
  induction fields with
  | nil => rfl
  | cons field fields ih =>
      have hname : (Value.ofString field.1).height = 0 := rfl
      rw [List.map_cons, heightOfEntries, ih, hname, List.map_cons,
        List.foldr_cons, Nat.zero_max]

theorem isRecord_recordValue {place : Place} {names : List String}
    {fields : List (String × Value)} (hnames : fields.map Prod.fst = names)
    (hnodup : names.Nodup) :
    (recordValue fields).IsRecord place names
      (fields.map fun field => some field.2) := by
  subst hnames
  refine .keyed ?_ (by simp) ?_
  · intro entry hentry
    obtain ⟨field, -, rfl⟩ := List.mem_map.mp hentry
    exact .str
  · intro position given hgiven
    rw [List.getElem?_map, Option.map_eq_some_iff] at hgiven
    obtain ⟨⟨name, value⟩, hfield, rfl⟩ := hgiven
    obtain ⟨hposition, hget⟩ := List.getElem?_eq_some_iff.mp hfield
    have hsplit : fields = fields.take position ++
        (name, value) :: fields.drop (position + 1) := by
      rw [← hget, List.getElem_cons_drop, List.take_append_drop]
    have hname : (fields.map Prod.fst)[position]? = some name := by
      rw [List.getElem?_map, hfield]
      rfl
    have hentries := congrArg (List.map fun field : String × Value =>
      (Value.ofString field.1, field.2)) hsplit
    rw [List.map_append, List.map_cons] at hentries
    refine .once hentries (.byName hname (.inl rfl)) ?_
    -- A second field of this name would repeat it in the list of names.
    intro entry hentry hnames
    rw [← List.map_append] at hentry
    obtain ⟨other, hother, rfl⟩ := List.mem_map.mp hentry
    obtain ⟨name', hname', hencode⟩ :=
      (names_iff_of_content? (v := .ofString other.1) rfl).mp hnames
    have hsame : other.1 = name := by
      rw [hname] at hname'
      cases hname'
      exact (Utf8.encode_inj.mp hencode).symm
    rw [hsplit, List.map_append, List.map_cons, List.nodup_middle,
      ← List.map_append, List.nodup_cons] at hnodup
    exact hnodup.1 (List.mem_map.mpr ⟨other, hother, hsame⟩)

/-! ## Identifiers and expressions as they are written -/

namespace Ident

theorem isWritten_line (line : UInt32) :
    (Value.ofNat line.toNat).IsWritten := by
  have hlt : line.toNat < 2 ^ 32 := line.toNat_lt
  exact isWritten_ofNat (by omega)

theorem isWritten_toValue {ident : Ident} (h : ident.Sized) :
    ident.toValue.IsWritten := by
  refine @isWritten_recordValue fieldNames _ rfl (by decide) (by decide) ?_
  simp only [List.forall_mem_cons]
  exact ⟨isWritten_ofString h, isWritten_line ident.line, by simp⟩

theorem height_toValue (ident : Ident) : ident.toValue.height = 1 := by
  rw [toValue, height_recordValue]
  simp [height_ofNat, Value.ofString, height]

end Ident

theorem representsLine_ofNat (line : UInt32) :
    RepresentsLine (some (Value.ofNat line.toNat)) line := by
  unfold Value.ofNat
  repeat' split
  all_goals exact .unsigned

theorem representsIdentFields_of_ident (ident : Ident) :
    RepresentsIdentFields
      [some (.ofString ident.text), some (.ofNat ident.line.toNat)] ident :=
  .mk (.inl rfl) (representsLine_ofNat ident.line)

theorem Ident.representsIdent_toValue (place : Place) (ident : Ident) :
    ident.toValue.RepresentsIdent place ident := by
  exact ⟨_, isRecord_recordValue rfl (by decide),
    representsIdentFields_of_ident ident⟩

namespace Expr

theorem Kind.type_not_mem_fieldNames (kind : Kind) :
    "type" ∉ kind.fieldNames := by
  cases kind <;> decide

theorem hasFields_taggedValue {place : Place} {kind : Kind}
    {fields : List (String × Value)}
    (hnames : fields.map Prod.fst = kind.fieldNames) :
    (taggedValue kind fields).HasFields place kind
      (fields.map fun field => some field.2) := by
  have htype : ∀ entry ∈ [] ++ fields.map (fun field : String × Value =>
      (Value.ofString field.1, field.2)),
      ¬ entry.1.RepresentsText "type" := by
    intro entry hentry htext
    obtain ⟨field, hfield, rfl⟩ := List.mem_map.mp hentry
    have hcontent := content?_eq_encode_iff.mpr htext
    have hname : field.1 = "type" :=
      Utf8.encode_inj.mp (Option.some.inj hcontent)
    apply kind.type_not_mem_fieldNames
    rw [← hnames, ← hname]
    exact List.mem_map_of_mem hfield
  refine ⟨.ofString kind.label, recordValue fields,
    @IsTagged.map [] _ _ _ (.inl rfl) htype, .label (.inl rfl), ?_⟩
  exact isRecord_recordValue hnames kind.nodup_fieldNames

mutual

theorem representsExpr_toValue (place : Place) (e : Expr) :
    e.toValue.RepresentsExpr place e := by
  match e with
  | .int _ => exact .int (hasFields_taggedValue rfl) (.inl rfl)
  | .float _ => exact .float (hasFields_taggedValue rfl) (.inl rfl)
  | .string _ => exact .string (hasFields_taggedValue rfl) (.inl rfl)
  | .name ident =>
      exact .name (hasFields_taggedValue rfl)
        (representsIdentFields_of_ident ident)
  | .array values =>
      exact .array (hasFields_taggedValue rfl) .array
        (representsExprs_toValues .inside values)
  | .branch condition truthy falsy =>
      exact .branch (hasFields_taggedValue rfl)
        (representsExpr_toValue .inside condition)
        (representsExpr_toValue .inside truthy)
        (representsExpr_toValue .inside falsy)
  | .call callee args =>
      exact .call (hasFields_taggedValue rfl)
        (callee.representsIdent_toValue .inside) (.given .array)
        (representsExprs_toValues .inside args)

theorem representsExprs_toValues (place : Place) (values : List Expr) :
    RepresentsExprs place (toValues values) values := by
  match values with
  | [] => exact .nil
  | value :: values =>
      exact .cons (representsExpr_toValue place value)
        (representsExprs_toValues place values)

end

mutual

theorem height_toValue (e : Expr) : e.toValue.height = e.nesting := by
  match e with
  | .int _ => rfl
  | .float _ => rfl
  | .string _ => rfl
  | .name ident =>
      rw [toValue, taggedValue, height_recordValue]
      simp [height_ofNat, Value.ofString, height, nesting]
  | .array values =>
      rw [toValue, taggedValue, height_recordValue]
      simp only [List.map_cons, List.map_nil, List.foldr_cons, List.foldr_nil,
        Value.ofString, height, nesting, heightOfItems_toValues values]
      omega
  | .branch condition truthy falsy =>
      rw [toValue, taggedValue, height_recordValue]
      simp only [List.map_cons, List.map_nil, List.foldr_cons, List.foldr_nil,
        Value.ofString, height, nesting, height_toValue condition,
        height_toValue truthy, height_toValue falsy]
      omega
  | .call callee args =>
      rw [toValue, taggedValue, height_recordValue]
      simp only [List.map_cons, List.map_nil, List.foldr_cons, List.foldr_nil,
        Value.ofString, height, nesting, callee.height_toValue,
        heightOfItems_toValues args]
      omega

theorem heightOfItems_toValues (values : List Expr) :
    heightOfItems (toValues values) = nestingOfAll values := by
  match values with
  | [] => rfl
  | value :: values =>
      rw [toValues, heightOfItems, nestingOfAll, height_toValue value,
        heightOfItems_toValues values]

end

theorem isWritten_taggedValue {kind : Kind} {fields : List (String × Value)}
    (hnames : fields.map Prod.fst = kind.fieldNames)
    (hvalues : ∀ field ∈ fields, field.2.IsWritten) :
    (taggedValue kind fields).IsWritten := by
  have hlabel : (Value.ofString kind.label).IsWritten := by
    refine isWritten_ofString ?_
    cases kind <;> decide
  have htagged : (("type", Value.ofString kind.label) :: fields).map Prod.fst =
      "type" :: kind.fieldNames := by
    rw [List.map_cons, hnames]
  refine isWritten_recordValue htagged ?_ ?_ ?_
  · cases kind <;> decide
  · cases kind <;> decide
  · exact List.forall_mem_cons.mpr ⟨hlabel, hvalues⟩

theorem length_toValues (values : List Expr) :
    (toValues values).length = values.length := by
  induction values with
  | nil => rfl
  | cons value values ih => rw [toValues, List.length_cons, ih, List.length_cons]

theorem isWritten_array_toValues {values : List Expr}
    (hlength : values.length < 2 ^ 32)
    (hvalues : ∀ v ∈ toValues values, v.IsWritten) :
    (Value.array (toValues values)).IsWritten := by
  refine isWritten_array ?_ hvalues
  rwa [length_toValues]

mutual

theorem isWritten_toValue (e : Expr) (h : e.Sized) : e.toValue.IsWritten := by
  match e with
  | .int _ =>
      refine isWritten_taggedValue rfl ?_
      exact List.forall_mem_singleton.mpr (isWritten_ofString h)
  | .float _ =>
      refine isWritten_taggedValue rfl ?_
      exact List.forall_mem_singleton.mpr (isWritten_ofString h)
  | .string _ =>
      refine isWritten_taggedValue rfl ?_
      exact List.forall_mem_singleton.mpr (isWritten_ofString h)
  | .name ident =>
      refine isWritten_taggedValue rfl ?_
      simp only [List.forall_mem_cons]
      exact ⟨isWritten_ofString h, Ident.isWritten_line ident.line, by simp⟩
  | .array values =>
      have hvalues := isWritten_array_toValues h.1
        (isWritten_each_toValues values h.2)
      refine isWritten_taggedValue rfl ?_
      exact List.forall_mem_singleton.mpr hvalues
  | .branch condition truthy falsy =>
      obtain ⟨hcondition, htruthy, hfalsy⟩ := h
      have hcondition := isWritten_toValue condition hcondition
      have htruthy := isWritten_toValue truthy htruthy
      have hfalsy := isWritten_toValue falsy hfalsy
      refine isWritten_taggedValue rfl ?_
      simp only [List.forall_mem_cons]
      exact ⟨hcondition, htruthy, hfalsy, by simp⟩
  | .call callee args =>
      obtain ⟨hcallee, hlength, hargs⟩ := h
      have hcallee := Ident.isWritten_toValue hcallee
      have hargs := isWritten_array_toValues hlength
        (isWritten_each_toValues args hargs)
      refine isWritten_taggedValue rfl ?_
      simp only [List.forall_mem_cons]
      exact ⟨hcallee, hargs, by simp⟩

theorem isWritten_each_toValues (values : List Expr) (h : SizedAll values) :
    ∀ v ∈ toValues values, v.IsWritten := by
  match values with
  | [] => simp [toValues]
  | value :: values =>
      rw [toValues, List.forall_mem_cons]
      exact ⟨isWritten_toValue value h.1, isWritten_each_toValues values h.2⟩

end

end Expr

/-! ## Calls, definitions and programs as they are written -/

namespace Call

theorem representsCall_toValue (call : Call) :
    call.toValue.RepresentsCall call := by
  refine ⟨_, isRecord_recordValue rfl (by decide), .mk ?_ (.given .array) ?_⟩
  · exact call.callee.representsIdent_toValue .outside
  · exact Expr.representsExprs_toValues .outside call.args

theorem height_toValue (call : Call) : call.toValue.height = call.nesting := by
  rw [toValue, height_recordValue]
  simp only [List.map_cons, List.map_nil, List.foldr_cons, List.foldr_nil,
    call.callee.height_toValue, height, Expr.heightOfItems_toValues, nesting]
  omega

theorem isWritten_toValue {call : Call} (h : call.Sized) :
    call.toValue.IsWritten := by
  obtain ⟨hcallee, hlength, hargs⟩ := h
  have hargs := Expr.isWritten_array_toValues hlength
    (Expr.isWritten_each_toValues call.args hargs)
  refine @isWritten_recordValue fieldNames _ rfl (by decide) (by decide) ?_
  simp only [List.forall_mem_cons]
  exact ⟨Ident.isWritten_toValue hcallee, hargs, by simp⟩

end Call

/-- A list is written as such if all its items are. -/
theorem isWritten_array_map {α : Type} {f : α → Value} {items : List α}
    (hlength : items.length < 2 ^ 32)
    (hitems : ∀ item ∈ items, (f item).IsWritten) :
    (Value.array (items.map f)).IsWritten := by
  refine isWritten_array (by simpa using hlength) ?_
  intro v hv
  obtain ⟨item, hitem, rfl⟩ := List.mem_map.mp hv
  exact hitems item hitem

/-- A list represents what its items were made from. -/
theorem forall₂_map_self {α : Type} {R : Value → α → Prop} {f : α → Value}
    (hf : ∀ item, R (f item) item) (items : List α) :
    List.Forall₂ R (items.map f) items := by
  rw [List.forall₂_map_left_iff, List.forall₂_same]
  exact fun item _ => hf item

namespace Definition

theorem representsDefinition_toValue (d : Definition) :
    d.toValue.RepresentsDefinition d := by
  refine ⟨_, isRecord_recordValue rfl (by decide),
    .mk ?_ (.given .array) ?_ (.given .array) ?_⟩
  · exact d.name.representsIdent_toValue .outside
  · exact forall₂_map_self (Ident.representsIdent_toValue .outside) d.params
  · exact forall₂_map_self Call.representsCall_toValue d.body

theorem height_toValue (d : Definition) : d.toValue.height = d.nesting := by
  rw [toValue, height_recordValue]
  simp only [List.map_cons, List.map_nil, List.foldr_cons, List.foldr_nil,
    d.name.height_toValue, height, heightOfItems_map, Ident.height_toValue,
    Call.height_toValue, nesting]
  omega

theorem isWritten_toValue {d : Definition} (h : d.Sized) :
    d.toValue.IsWritten := by
  obtain ⟨hname, ⟨hparamCount, hparams⟩, hcallCount, hcalls⟩ := h
  have hparams : (Value.array (d.params.map Ident.toValue)).IsWritten :=
    isWritten_array_map hparamCount fun param hparam =>
      Ident.isWritten_toValue (hparams param hparam)
  have hcalls : (Value.array (d.body.map Call.toValue)).IsWritten :=
    isWritten_array_map hcallCount fun call hcall =>
      Call.isWritten_toValue (hcalls call hcall)
  refine @isWritten_recordValue fieldNames _ rfl (by decide) (by decide) ?_
  simp only [List.forall_mem_cons]
  exact ⟨Ident.isWritten_toValue hname, hparams, hcalls, by simp⟩

end Definition

namespace Program

theorem representsProgram_toValue (program : Program) :
    (toValue program).RepresentsProgram program :=
  ⟨_, .array, forall₂_map_self Definition.representsDefinition_toValue program⟩

theorem height_toValue (program : Program) :
    (toValue program).height = program.nesting := by
  rw [toValue, height, heightOfItems_map, nesting, Nat.add_comm]
  simp only [Definition.height_toValue]

theorem serialises_toBytes {program : Program} (h : program.Sized) :
    (toValue program).Serialises program.toBytes :=
  isWritten_array_map h.1 fun d hd => Definition.isWritten_toValue (h.2 d hd)

/-- The bytes of a program are read as its value, or not at all when they nest
too deep. -/
theorem ofBytes?_toBytes_append {program : Program} (h : program.Sized)
    (rest : Bytes) :
    ofBytes? (program.toBytes ++ rest) =
      if program.nesting ≤ maxNesting then some program else none := by
  have hread := (serialises_toBytes h).read_append maxNesting rest
  rw [height_toValue] at hread
  have hvalue : ofValue? (toValue program) = some program :=
    ofValue?_eq_some_iff.mpr (representsProgram_toValue program)
  rw [ofBytes?, hread]
  by_cases hnesting : program.nesting ≤ maxNesting
  · simp [hnesting, hvalue]
  · simp [hnesting]

/--
A program whose sizes fit their headers is read back from its bytes, all
strings and lines intact and whatever follows, exactly when it nests at most
1023 deep.  Deeper programs are refused by the reader.
-/
theorem ofBytes_toBytes_append (program : Program) (hsized : program.Sized)
    (rest : Bytes) :
    (program.nesting ≤ 1023 →
      ofBytes (program.toBytes ++ rest) = .ok program) ∧
    (1023 < program.nesting →
      ∃ detail, ofBytes (program.toBytes ++ rest) =
        .error { fault := .serialization detail }) := by
  have hread := ofBytes?_toBytes_append hsized rest
  constructor
  · intro hnesting
    have hwithin : program.nesting ≤ maxNesting := hnesting
    rw [ofBytes, hread, if_pos hwithin]
  · intro hnesting
    have hdeep : ¬ program.nesting ≤ maxNesting := Nat.not_le.mpr hnesting
    rw [ofBytes, hread, if_neg hdeep]
    exact ⟨_, rfl⟩

/-! ### At the limit -/

/-- One call, whose argument is a branch on a branch, `levels` times over. -/
def deepest (levels : Nat) : Program :=
  [{ name := ⟨"main", 1⟩
     params := [⟨"n", 1⟩]
     body := [{ callee := ⟨"print", 2⟩, args := [condition levels] }] }]
where
  condition : Nat → Expr
    | 0 => .name ⟨"n", 2⟩
    | levels + 1 => .branch (condition levels) (.int "1") (.string "é")

theorem deepest.sized_condition (levels : Nat) : (condition levels).Sized := by
  induction levels with
  | zero => exact (by decide : "n".utf8ByteSize < 2 ^ 32)
  | succ levels ih =>
      have hint : (Expr.int "1").Sized := by
        unfold Expr.Sized
        decide
      have hstring : (Expr.string "é").Sized := by
        unfold Expr.Sized
        decide
      exact ⟨ih, hint, hstring⟩

theorem deepest.nesting_condition (levels : Nat) :
    (condition levels).nesting = levels + 1 := by
  induction levels with
  | zero => rfl
  | succ levels ih =>
      rw [condition, Expr.nesting, ih]
      simp only [Expr.nesting]
      omega

theorem sized_deepest (levels : Nat) : (deepest levels).Sized := by
  have hcallee : "print".utf8ByteSize < 2 ^ 32 := by decide
  have hcall : Call.Sized ⟨⟨"print", 2⟩, [deepest.condition levels]⟩ :=
    ⟨hcallee, by simp, deepest.sized_condition levels, trivial⟩
  simp only [deepest, Program.Sized, Definition.Sized, hcall, Ident.Sized,
    List.forall_mem_singleton, List.length_singleton]
  decide

theorem nesting_deepest (levels : Nat) :
    (deepest levels).nesting = levels + 6 := by
  simp only [deepest, Program.nesting, Definition.nesting, Call.nesting,
    Expr.nestingOfAll, deepest.nesting_condition, List.map_cons, List.map_nil,
    List.foldr_cons, List.foldr_nil]
  omega

/-- The limit is exact: 1023 levels are read back, 1024 are not. -/
theorem ofBytes_toBytes_append_at_limit :
    ((deepest 1017).Sized ∧ (deepest 1017).nesting = 1023 ∧
      ofBytes ((deepest 1017).toBytes ++ [0xc1]) = .ok (deepest 1017)) ∧
    ((deepest 1018).Sized ∧ (deepest 1018).nesting = 1024 ∧
      ∃ detail, ofBytes ((deepest 1018).toBytes ++ [0xc1]) =
        .error { fault := .serialization detail }) := by
  have hat : (deepest 1017).nesting = 1023 := nesting_deepest 1017
  have habove : (deepest 1018).nesting = 1024 := nesting_deepest 1018
  have hread := ofBytes_toBytes_append (deepest 1017) (sized_deepest 1017) [0xc1]
  have hrefused :=
    ofBytes_toBytes_append (deepest 1018) (sized_deepest 1018) [0xc1]
  exact ⟨⟨sized_deepest 1017, hat, hread.1 (by omega)⟩,
    sized_deepest 1018, habove, hrefused.2 (by omega)⟩

end Program

end Lowering
