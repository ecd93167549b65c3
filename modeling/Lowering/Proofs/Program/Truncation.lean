import Lowering.Build
import Lowering.Proofs.File.Replacement
import Lowering.Proofs.Program.Normalisation

/-!
# Programs that were cut off

Serialisations are self-delimiting: where one ends can be told from its bytes
alone, so none of them is the beginning of another.  A program therefore takes
up a definite number of bytes at the front of its input.  The bytes behind them
do not count, and with one byte less there is no program at all.

This matters for files.  Saving empties a file before it writes to it, and if it
is interrupted the file holds a beginning of what should be there.  Such a file
is refused, however deep the program nests and wherever the cut is.

The sizes of the program have to fit their headers.  Larger ones are written
modulo `2 ^ 32`, and what is written then is no serialisation of the program's
value.  It may even start with one of a shorter program, and a cut behind that
goes unnoticed.

## Main results

* `Program.refused_of_isPrefix` — what is cut off from a serialisation is
  refused.
* `Program.truncation_is_detected` — all of this for programs and their files.
* `Program.truncation_of_overlong_undetected` — the bound on sizes is needed: a
  program of `2 ^ 32` definitions is read as the empty one after one byte.
-/

namespace Lowering

/-- From a file that was replaced, the program in its new content is read. -/
theorem Store.Replaces.loadProgram_eq {store after : Store} {path : String}
    {content : Bytes} (h : store.Replaces path content after) :
    after.loadProgram path = Program.ofBytes content := by
  rw [Store.loadProgram, h.find_eq]
  rfl

namespace Program

open MessagePack.Header (SizeForms)
open MessagePack.Value

/-! ## Refused bytes -/

/-- The bytes are no program; the error has no context. -/
def Refused (bytes : Bytes) : Prop :=
  ∃ detail, ofBytes bytes = .error { fault := .serialization detail }

theorem refused_of_ofBytes?_eq_none {bytes : Bytes}
    (h : ofBytes? bytes = none) : Refused bytes := by
  rw [Refused, ofBytes, h]
  exact ⟨_, rfl⟩

theorem refused_toBytes_of_deep {program : Program} (hsized : program.Sized)
    (hdeep : maxNesting < program.nesting) : Refused program.toBytes := by
  apply refused_of_ofBytes?_eq_none
  have hread := ofBytes?_toBytes_append hsized []
  rwa [List.append_nil, if_neg (Nat.not_le.mpr hdeep)] at hread

/-- A program in the cut bytes would be a serialisation that ends before the
whole one does. -/
theorem refused_of_isPrefix {v : MessagePack.Value} {used cut : Bytes}
    (hused : v.Serialises used) (hcut : cut <+: used) (hne : cut ≠ used) :
    Refused cut := by
  apply refused_of_ofBytes?_eq_none
  cases hread : ofBytes? cut with
  | none => rfl
  | some program =>
      obtain ⟨front, rest, w, rfl, hfront, -, -⟩ :=
        ofBytes?_eq_some_iff.mp hread
      obtain ⟨missing, rfl⟩ := hcut
      have hwhole : (front ++ rest ++ missing) ++ [] =
          front ++ (rest ++ missing) := by simp
      obtain ⟨-, -, hnil⟩ := hused.append_inj hfront hwhole
      have hmissing : missing = [] := (List.append_eq_nil_iff.mp hnil.symm).2
      exact absurd (by rw [hmissing, List.append_nil]) hne

/-! ## Where a program ends -/

/-- The first `n` bytes are a program: whatever starts with them is read as it,
and less of them is refused. -/
def EndsAt (program : Program) (n : Nat) (bytes : Bytes) : Prop :=
  n ≤ bytes.length ∧
    (∀ other, bytes.take n <+: other → ofBytes other = .ok program) ∧
    ∀ cut, cut <+: bytes.take n → cut ≠ bytes.take n → Refused cut

theorem endsAt_of_serialises {v : MessagePack.Value} {used : Bytes}
    {program : Program} (hused : v.Serialises used)
    (hheight : v.height ≤ maxNesting) (hprogram : v.RepresentsProgram program)
    (rest : Bytes) : program.EndsAt used.length (used ++ rest) := by
  have htake : (used ++ rest).take used.length = used := by simp
  rw [EndsAt, htake]
  refine ⟨by simp, ?_, ?_⟩
  · intro other hother
    obtain ⟨tail, rfl⟩ := hother
    rw [ofBytes_eq_ok_iff_ofBytes?, ofBytes?_eq_some_iff]
    exact ⟨used, tail, v, rfl, hused, hheight, hprogram⟩
  · intro cut hcut hne
    exact refused_of_isPrefix hused hcut hne

/-! ## Files that were cut off -/

theorem toBytes_ne_nil (program : Program) : program.toBytes ≠ [] :=
  List.append_ne_nil_of_left_ne_nil (SizeForms.write_ne_nil _ _) _

theorem create_progAst : Store.empty.create "prog.ast" =
    (.ok (Store.empty.here ++ ["prog.ast"]),
      Store.empty.put (Store.empty.here ++ ["prog.ast"]) (.file [])) := by
  decide

/-- Saving was interrupted: the file was created, but what it got is no program
yet. -/
theorem loadProgram_of_refused {store created : Store} {path : String}
    {location : Location} {cut : Bytes}
    (hcreate : store.create path = (.ok location, created))
    (hdevice : store.node? location ≠ some .fullDevice) (hcut : Refused cut) :
    ∃ detail, (created.fill location cut).2.loadProgram path =
      .error { fault := .serialization detail } := by
  have hreplaces := (Store.replaces_fill_of_create hcreate hdevice cut).2
  rw [hreplaces.loadProgram_eq]
  exact hcut

/--
Bytes that are read as a program have an end.  All bytes that agree up to it are
read as the same program, and every strict beginning of them is refused.

A program whose strings and lists are shorter than `2 ^ 32` ends where the bytes
written for it do, if it is within the nesting limit.  Every strict beginning of
these bytes is refused, also when the program nests deeper, and so is a file
that was left with such a beginning.
-/
theorem truncation_is_detected :
    (∀ bytes program, ofBytes bytes = .ok program →
      ∃ n, program.EndsAt n bytes) ∧
    (∀ program : Program, program.Sized → program.nesting ≤ 1023 →
      program.EndsAt program.toBytes.length program.toBytes) ∧
    (∀ program : Program, program.Sized →
      ∀ cut, cut <+: program.toBytes → cut ≠ program.toBytes →
        Refused cut ∧
        ∀ (store created : Store) (path : String) (location : Location),
          store.create path = (.ok location, created) →
          store.node? location ≠ some .fullDevice →
          ∃ detail, (created.fill location cut).2.loadProgram path =
            .error { fault := .serialization detail }) := by
  refine ⟨?_, ?_, ?_⟩
  · intro bytes program h
    rw [ofBytes_eq_ok_iff_ofBytes?, ofBytes?_eq_some_iff] at h
    obtain ⟨used, rest, v, rfl, hused, hheight, hprogram⟩ := h
    exact ⟨used.length, endsAt_of_serialises hused hheight hprogram rest⟩
  · intro program hsized hnesting
    have hheight : (toValue program).height ≤ maxNesting := by
      rw [height_toValue]
      exact hnesting
    have hends := endsAt_of_serialises (serialises_toBytes hsized) hheight
      (representsProgram_toValue program) []
    rwa [List.append_nil] at hends
  · intro program hsized cut hcut hne
    have hrefused := refused_of_isPrefix (serialises_toBytes hsized) hcut hne
    refine ⟨hrefused, ?_⟩
    intro store created path location hcreate hdevice
    exact loadProgram_of_refused hcreate hdevice hrefused

/-- Bytes in mixed forms with something behind them, a program at the nesting
limit, and one above it whose file lacks the last byte. -/
theorem truncation_is_detected_deepest :
    (∃ n, EndsAt [⟨⟨"f", 5⟩, [], [⟨⟨"g", 0⟩, []⟩]⟩] n mixedForms) ∧
    (deepest 1017).EndsAt (deepest 1017).toBytes.length (deepest 1017).toBytes ∧
    (deepest 1018).nesting = 1024 ∧ Refused (deepest 1018).toBytes.dropLast ∧
    ∃ location created,
      Store.empty.create "prog.ast" = (.ok location, created) ∧
      ∃ detail, (created.fill location
          (deepest 1018).toBytes.dropLast).2.loadProgram "prog.ast" =
        .error { fault := .serialization detail } := by
  have hmixed : ofBytes mixedForms =
      .ok [⟨⟨"f", 5⟩, [], [⟨⟨"g", 0⟩, []⟩]⟩] := by rfl
  have hlimit : (deepest 1017).nesting ≤ 1023 :=
    Nat.le_of_eq (nesting_deepest 1017)
  have hlast : (deepest 1018).toBytes.dropLast ≠ (deepest 1018).toBytes := by
    intro heq
    have hlength := congrArg List.length heq
    have hpos := List.length_pos_iff.mpr (toBytes_ne_nil (deepest 1018))
    rw [List.length_dropLast] at hlength
    omega
  obtain ⟨hends, hfull, hcut⟩ := truncation_is_detected
  obtain ⟨hrefused, hfile⟩ := hcut (deepest 1018) (sized_deepest 1018) _
    (List.dropLast_prefix _) hlast
  exact ⟨hends _ _ hmixed, hfull _ (sized_deepest 1017) hlimit,
    nesting_deepest 1018, hrefused, _, _, create_progAst,
    hfile _ _ _ _ create_progAst (by decide)⟩

/-! ## Beyond the size limit -/

/-- Where the number of definitions is a multiple of `2 ^ 32`, the header is
that of an empty list. -/
theorem toBytes_of_length_mod_eq_zero {program : Program}
    (h : program.length % 2 ^ 32 = 0) :
    program.toBytes = 0x90 :: writeItems (program.map Definition.toValue) := by
  have hword : program.length % 0x100000000 = 0 := h
  have hheader : SizeForms.ofArray.write
      (program.map Definition.toValue).length = [0x90] := by
    rw [List.length_map, ← SizeForms.write_mod, hword]
    rfl
  change SizeForms.ofArray.write _ ++ _ = _
  rw [hheader]
  rfl

/-- The header alone is then a strict beginning. -/
theorem header_isPrefix_of_length_mod_eq_zero {program : Program}
    (h : program.length % 2 ^ 32 = 0) (hne : program ≠ []) :
    [0x90] <+: program.toBytes ∧ [0x90] ≠ program.toBytes := by
  rw [toBytes_of_length_mod_eq_zero h]
  refine ⟨⟨_, rfl⟩, ?_⟩
  intro heq
  cases program with
  | nil => exact hne rfl
  | cons d ds =>
      have hitems := (List.cons.inj heq).2
      have hfirst := (List.append_eq_nil_iff.mp hitems.symm).1
      have hheader := (List.append_eq_nil_iff.mp hfirst).1
      rw [MessagePack.Header.write] at hheader
      exact SizeForms.write_ne_nil _ _ hheader

/-- The same definition, so many times. -/
def copies (count : Nat) : Program := List.replicate count { name := ⟨"f", 1⟩ }

theorem nesting_copies_le (count : Nat) : (copies count).nesting ≤ 3 := by
  have hdeepest : ((copies count).map fun d => d.nesting).foldr max 0 ≤ 2 := by
    induction count with
    | zero => exact Nat.zero_le 2
    | succ count ih => exact Nat.max_le.mpr ⟨Nat.le_refl 2, ih⟩
  rw [nesting]
  omega

/--
With `2 ^ 32` definitions the size does not fit, though the program is far from
the nesting limit.  One byte of it is read as the empty program, and so is a
file that was left with this byte.
-/
theorem truncation_of_overlong_undetected :
    (copies (2 ^ 32)).nesting ≤ 1023 ∧
    [0x90] <+: (copies (2 ^ 32)).toBytes ∧ [0x90] ≠ (copies (2 ^ 32)).toBytes ∧
    ofBytes [0x90] = .ok [] ∧ ¬ Refused [0x90] ∧
    ¬ (copies (2 ^ 32)).EndsAt (copies (2 ^ 32)).toBytes.length
      (copies (2 ^ 32)).toBytes ∧
    ∃ location created,
      Store.empty.create "prog.ast" = (.ok location, created) ∧
      (created.fill location [0x90]).2.loadProgram "prog.ast" = .ok [] := by
  have hlength : (copies (2 ^ 32)).length = 2 ^ 32 := List.length_replicate
  have hne : copies (2 ^ 32) ≠ [] := by
    rw [← List.length_pos_iff, hlength]
    exact Nat.two_pow_pos 32
  have hmod : (copies (2 ^ 32)).length % 2 ^ 32 = 0 := by
    rw [hlength, Nat.mod_self]
  obtain ⟨hcut, hstrict⟩ := header_isPrefix_of_length_mod_eq_zero hmod hne
  have hread : ofBytes [0x90] = .ok [] := rfl
  have haccepted : ¬ Refused [0x90] := by
    rintro ⟨detail, hdetail⟩
    rw [hread] at hdetail
    cases hdetail
  have hnesting := nesting_copies_le (2 ^ 32)
  refine ⟨Nat.le_trans hnesting (by decide), hcut, hstrict, hread, haccepted,
    ?_, _, _, create_progAst, ?_⟩
  · rintro ⟨-, -, hrefused⟩
    rw [List.take_length] at hrefused
    exact haccepted (hrefused _ hcut hstrict)
  · have hreplaces :=
      (Store.replaces_fill_of_create create_progAst (by decide) [0x90]).2
    rw [hreplaces.loadProgram_eq, hread]

end Program

end Lowering
