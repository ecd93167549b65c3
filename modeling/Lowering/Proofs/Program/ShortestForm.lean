import Lowering.Proofs.MessagePack.ShortestForm
import Lowering.Proofs.Program.RoundTrip

/-!
# Programs are written as short as can be

A program is written as texts, line numbers in their shortest form, and arrays
and maps of these, all the way down.  Such values are `Compact`, and no
serialisation of the same tree is shorter than theirs.

Field names are written out in full: a positional record would be shorter, but
it is another tree.

## Main results

* `Program.compact_toValue` — the value of a program is compact.
* `Program.toBytes_shortest` — the bytes of a program are those of one value,
  and of its tree there are no shorter ones.
-/

namespace Lowering

open MessagePack (Header Value twosComplement)
open MessagePack.Value

/-! ## Records and lists -/

theorem compact_recordValue {fields : List (String × Value)}
    (h : ∀ field ∈ fields, field.2.Compact) : (recordValue fields).Compact := by
  refine .map ?_ ?_
  · intro entry hentry
    obtain ⟨field, -, rfl⟩ := List.mem_map.mp hentry
    exact .str
  · intro entry hentry
    obtain ⟨field, hfield, rfl⟩ := List.mem_map.mp hentry
    exact h field hfield

theorem compact_array_map {α : Type} {f : α → Value}
    (hf : ∀ item, (f item).Compact) (items : List α) :
    (Value.array (items.map f)).Compact := by
  refine .array ?_
  intro v hv
  obtain ⟨item, -, rfl⟩ := List.mem_map.mp hv
  exact hf item

/-! ## Programs -/

theorem Ident.compact_toValue (ident : Ident) : ident.toValue.Compact := by
  refine compact_recordValue ?_
  simp only [List.forall_mem_cons]
  exact ⟨.str, .number, by simp⟩

namespace Expr

theorem compact_taggedValue {kind : Kind} {fields : List (String × Value)}
    (h : ∀ field ∈ fields, field.2.Compact) :
    (taggedValue kind fields).Compact :=
  compact_recordValue (List.forall_mem_cons.mpr ⟨.str, h⟩)

mutual

theorem compact_toValue (e : Expr) : e.toValue.Compact := by
  match e with
  | .int _ => exact compact_taggedValue (List.forall_mem_singleton.mpr .str)
  | .float _ => exact compact_taggedValue (List.forall_mem_singleton.mpr .str)
  | .string _ => exact compact_taggedValue (List.forall_mem_singleton.mpr .str)
  | .name _ =>
      refine compact_taggedValue ?_
      simp only [List.forall_mem_cons]
      exact ⟨.str, .number, by simp⟩
  | .array values =>
      exact compact_taggedValue
        (List.forall_mem_singleton.mpr (.array (compact_toValues values)))
  | .branch condition truthy falsy =>
      refine compact_taggedValue ?_
      simp only [List.forall_mem_cons]
      exact ⟨compact_toValue condition, compact_toValue truthy,
        compact_toValue falsy, by simp⟩
  | .call callee args =>
      refine compact_taggedValue ?_
      simp only [List.forall_mem_cons]
      exact ⟨callee.compact_toValue, .array (compact_toValues args), by simp⟩

theorem compact_toValues (values : List Expr) :
    ∀ v ∈ toValues values, v.Compact := by
  match values with
  | [] => simp [toValues]
  | value :: values =>
      rw [toValues, List.forall_mem_cons]
      exact ⟨compact_toValue value, compact_toValues values⟩

end

end Expr

theorem Call.compact_toValue (call : Call) : call.toValue.Compact := by
  refine compact_recordValue ?_
  simp only [List.forall_mem_cons]
  exact ⟨call.callee.compact_toValue, .array (Expr.compact_toValues call.args),
    by simp⟩

theorem Definition.compact_toValue (d : Definition) : d.toValue.Compact := by
  refine compact_recordValue ?_
  simp only [List.forall_mem_cons]
  exact ⟨d.name.compact_toValue,
    compact_array_map Ident.compact_toValue d.params,
    compact_array_map Call.compact_toValue d.body, by simp⟩

namespace Program

theorem compact_toValue (program : Program) : (toValue program).Compact :=
  compact_array_map Definition.compact_toValue program

/-- No other value has the bytes that are written for a program. -/
theorem serialises_toBytes_iff {program : Program} (h : program.Sized)
    (v : Value) : v.Serialises program.toBytes ↔ v = toValue program := by
  have hprogram := serialises_toBytes h
  constructor
  · intro hv
    exact (hv.append_inj hprogram
      (rfl : program.toBytes ++ [] = program.toBytes ++ [])).1
  · intro hv
    rw [hv]
    exact hprogram

/--
The bytes of a program whose sizes fit their headers are those of one value and
of no other.  No bytes of the same tree are fewer: neither another form of a
size, be it of a string, an array or a map, nor another form of a line, with a
sign or without, saves any.
-/
theorem toBytes_shortest (program : Program) (hsized : program.Sized) :
    (∀ v : Value, v.Serialises program.toBytes ↔ v = toValue program) ∧
    ∀ used, (toValue program).tree.Serialises used →
      program.toBytes.length ≤ used.length := by
  constructor
  · exact serialises_toBytes_iff hsized
  · exact (compact_toValue program).shortest

/-! ### A choice of forms -/

/-- The name has 16 letters, too few to need a long header, but 32 bytes. -/
def longName : Program := [{ name := ⟨"éééééééééééééééé", 200⟩ }]

/-- The same tree, but the line has a sign and takes eight bytes. -/
def wideLine : Value :=
  .array [recordValue [
    ("name", recordValue [
      ("value", .ofString "éééééééééééééééé"), ("line", .signed .i64 200)]),
    ("args", .array []), ("body", .array [])]]

theorem isWritten_wideLine : wideLine.IsWritten := by
  have hform : (0xd3, 8, fun n => Header.signed .i64 (twosComplement 8 n)) ∈
      Header.numberedForms := by simp [Header.numberedForms]
  have hline : (Value.signed .i64 200).IsWritten :=
    .signed (.numbered hform (by decide : 200 < 256 ^ 8))
  have hname : (recordValue [("value", .ofString "éééééééééééééééé"),
      ("line", .signed .i64 200)]).IsWritten := by
    refine @isWritten_recordValue Ident.fieldNames _ rfl (by decide)
      (by decide) ?_
    simp only [List.forall_mem_cons]
    exact ⟨isWritten_ofString (by decide), hline, by simp⟩
  have hempty : (Value.array []).IsWritten :=
    isWritten_array (by decide) (by simp)
  refine isWritten_array (by decide) (List.forall_mem_singleton.mpr ?_)
  refine @isWritten_recordValue Definition.fieldNames _ rfl (by decide)
    (by decide) ?_
  simp only [List.forall_mem_cons]
  exact ⟨hname, hempty, hempty, by simp⟩

/-- 67 bytes are the least for this tree, and it has a serialisation of 74. -/
theorem toBytes_shortest_longName :
    longName.Sized ∧
    (∀ v : Value, v.Serialises longName.toBytes ↔ v = toValue longName) ∧
    longName.toBytes.length = 67 ∧
    (∀ used, (toValue longName).tree.Serialises used → 67 ≤ used.length) ∧
    (toValue longName).tree.Serialises wideLine.write ∧
    wideLine.write.length = 74 := by
  have hname : "éééééééééééééééé".utf8ByteSize < 2 ^ 32 := by decide
  have hsized : longName.Sized :=
    ⟨by decide, List.forall_mem_singleton.mpr
      ⟨hname, ⟨by decide, by simp⟩, by decide, by simp⟩⟩
  have hlength : longName.toBytes.length = 67 := by decide +kernel
  obtain ⟨hone, hshortest⟩ := toBytes_shortest longName hsized
  exact ⟨hsized, hone, hlength, hlength ▸ hshortest,
    ⟨wideLine, rfl, isWritten_wideLine⟩, by decide +kernel⟩

end Program

end Lowering
