import Lowering.CommandLine
import Lowering.Proofs.Text.Numerals
import Mathlib.Data.List.Induction

/-!
# The grammar of the command line

Arguments come in groups: an option by itself, an option and the argument behind
it, or an input.  The first argument of a group tells how long the group is, so
arguments fall into groups in one way at most.

Taking a group changes one part of what is asked for, the part that belongs to
its kind (`Request.take`).  The only thing that can go wrong with arguments that
fall into groups is a second input.  So what is asked for depends, for each
kind, on the groups of this kind and their order, and not on how kinds are
mixed.

## Main results

* `parseFrom_option_append`, `parseFrom_input_cons` — one group is taken in one
  step.
* `parseFrom_of_fallsInto`, `exists_fallsInto_of_parseFrom_eq_ok` — a whole run.
* `parse_accepts_exactly_groups` — the grammar, and what the groups ask for.
-/

namespace Lowering

/-! ## Groups -/

/-- What a group of arguments asks for. -/
inductive ArgGroup where
  | help
  | version
  | verbose
  | output (path : String)
  | runtime (directory : String)
  | indent (width : Nat)
  | input (path : String)
deriving DecidableEq

deriving instance DecidableEq for Argument

namespace ArgGroup

/-- The kind of a group, which its first argument tells. -/
def kind : ArgGroup → Argument
  | .help => .help
  | .version => .version
  | .verbose => .verbose
  | .output _ => .output
  | .runtime _ => .runtime
  | .indent _ => .indent
  | .input _ => .input

def output? : ArgGroup → Option String
  | .output path => some path
  | _ => none

def runtime? : ArgGroup → Option String
  | .runtime directory => some directory
  | _ => none

def indent? : ArgGroup → Option Nat
  | .indent width => some width
  | _ => none

def input? : ArgGroup → Option String
  | .input path => some path
  | _ => none

/-- The arguments that a group consists of. -/
inductive Spells : ArgGroup → List String → Prop
  | help {name : String} (h : name ∈ ["-h", "--help"]) : Spells .help [name]
  | version {name : String} (h : name ∈ ["-V", "--version"]) :
      Spells .version [name]
  | verbose {name : String} (h : name ∈ ["-v", "--verbose"]) :
      Spells .verbose [name]
  | output {name : String} (h : name ∈ ["-o", "--output"]) (path : String) :
      Spells (.output path) [name, path]
  | runtime {name : String} (h : name ∈ ["-r", "--runtime"])
      (directory : String) : Spells (.runtime directory) [name, directory]
  | indent {value : String} {width : Nat}
      (h : Text.Numeral value.toList width) (hbound : width ≤ 2 ^ 64 - 1) :
      Spells (.indent width) ["--indent", value]
  | input {path : String} (h : path.toList.head? ≠ some '-') :
      Spells (.input path) [path]

end ArgGroup

/-- The arguments are these groups, one behind the other. -/
inductive FallsInto : List String → List ArgGroup → Prop
  | nil : FallsInto [] []
  | cons {group : ArgGroup} {piece rest : List String} {groups : List ArgGroup}
      (h : group.Spells piece) (hrest : FallsInto rest groups) :
      FallsInto (piece ++ rest) (group :: groups)

/-! ## Single arguments -/

namespace Argument

/-- What is known about a text from its kind. -/
def Describes : Argument → String → Prop
  | .help, text => text ∈ ["-h", "--help"]
  | .version, text => text ∈ ["-V", "--version"]
  | .verbose, text => text ∈ ["-v", "--verbose"]
  | .output, text => text ∈ ["-o", "--output"]
  | .runtime, text => text ∈ ["-r", "--runtime"]
  | .indent, text => text = "--indent"
  | .unknown, text => text.toList.head? = some '-'
  | .input, text => text.toList.head? ≠ some '-'

theorem describes_ofString (text : String) : (ofString text).Describes text := by
  unfold ofString
  split
  case h_12 =>
    split
    · assumption
    · assumption
  all_goals simp [Describes]

theorem describes_of_ofString {text : String} {kind : Argument}
    (h : ofString text = kind) : kind.Describes text :=
  h ▸ describes_ofString text

/-- Every option begins with a hyphen. -/
theorem ofString_of_head?_ne {text : String} (h : text.toList.head? ≠ some '-') :
    ofString text = .input := by
  unfold ofString
  split
  case h_12 => exact if_neg h
  all_goals exact absurd rfl h

end Argument

/-! ## One group -/

theorem ArgGroup.Spells.exists_cons {group : ArgGroup} {piece : List String}
    (h : group.Spells piece) : ∃ first more, piece = first :: more := by
  cases h <;> exact ⟨_, _, rfl⟩

/-- The first argument of a group tells its kind. -/
theorem ArgGroup.ofString_of_spells {group : ArgGroup} {first : String}
    {more : List String} (h : group.Spells (first :: more)) :
    Argument.ofString first = group.kind := by
  cases h with
  | help h =>
      have hnames : ∀ name ∈ ["-h", "--help"],
          Argument.ofString name = .help := by decide
      exact hnames first h
  | version h =>
      have hnames : ∀ name ∈ ["-V", "--version"],
          Argument.ofString name = .version := by decide
      exact hnames first h
  | verbose h =>
      have hnames : ∀ name ∈ ["-v", "--verbose"],
          Argument.ofString name = .verbose := by decide
      exact hnames first h
  | output h path =>
      have hnames : ∀ name ∈ ["-o", "--output"],
          Argument.ofString name = .output := by decide
      exact hnames first h
  | runtime h directory =>
      have hnames : ∀ name ∈ ["-r", "--runtime"],
          Argument.ofString name = .runtime := by decide
      exact hnames first h
  | indent h hbound => rfl
  | input h => exact Argument.ofString_of_head?_ne h

namespace Request

/-- What is asked for once a group was taken. -/
def take (request : Request) : ArgGroup → Request
  | .help => { request with help := true }
  | .version => { request with version := true }
  | .verbose => { request with settings.verbose := true }
  | .output path => { request with settings.output := some path }
  | .runtime directory =>
      { request with settings.fragmentDirectory := directory }
  | .indent width => { request with settings.indent := width }
  | .input path => { request with input := some path }

/-- The inputs before and among the groups. -/
def inputs (request : Request) (groups : List ArgGroup) : List String :=
  request.input.toList ++ groups.filterMap ArgGroup.input?

theorem parseFrom_option_append {group : ArgGroup} {piece : List String}
    (h : group.Spells piece) (hoption : group.input? = none)
    (request : Request) (rest : List String) :
    parseFrom request (piece ++ rest) = parseFrom (request.take group) rest := by
  obtain ⟨first, more, rfl⟩ := h.exists_cons
  have hkind := ArgGroup.ofString_of_spells h
  rw [parseFrom.eq_def]
  simp only [List.cons_append, hkind]
  cases h
  case indent value width hvalue hbound =>
    have hread : Text.unsigned? indentBound value.toList = some width := by
      have hsize : indentBound = 2 ^ 64 := rfl
      exact Text.unsigned?_eq_some_iff.2 ⟨hvalue, by omega⟩
    simp only [ArgGroup.kind, List.cons_append, List.nil_append, hread]
    rfl
  case input => cases hoption
  all_goals rfl

theorem parseFrom_input_cons {path : String}
    (h : path.toList.head? ≠ some '-') (request : Request)
    (rest : List String) :
    parseFrom request (path :: rest) =
      if request.input = none then parseFrom (request.take (.input path)) rest
      else .error .secondInput := by
  rw [parseFrom.eq_def]
  simp only [Argument.ofString_of_head?_ne h]
  cases request.input with
  | none => rfl
  | some other => rfl

/-! ## Whole runs -/

theorem inputs_take {group : ArgGroup} (hoption : group.input? = none)
    (request : Request) (groups : List ArgGroup) :
    (request.take group).inputs groups = request.inputs (group :: groups) := by
  have hinput : (request.take group).input = request.input := by
    cases group
    case input => cases hoption
    all_goals rfl
  rw [inputs, inputs, hinput, List.filterMap_cons_none hoption]

theorem inputs_take_input {request : Request} (h : request.input = none)
    (path : String) (groups : List ArgGroup) :
    (request.take (.input path)).inputs groups =
      request.inputs (.input path :: groups) := by
  have hpath : (ArgGroup.input path).input? = some path := rfl
  rw [inputs, inputs, h, List.filterMap_cons_some hpath]
  rfl

/-- Arguments that fall into groups can be taken unless there is a second input,
and then they ask for what the groups ask for. -/
theorem parseFrom_of_fallsInto {args : List String} {groups : List ArgGroup}
    (h : FallsInto args groups) (request : Request) :
    parseFrom request args =
      if (request.inputs groups).length ≤ 1 then .ok (groups.foldl take request)
      else .error .secondInput := by
  induction h generalizing request with
  | nil =>
      have hone : (request.inputs []).length ≤ 1 := by
        rw [inputs, List.filterMap_nil, List.append_nil]
        exact Option.length_toList_le
      rw [if_pos hone]
      rfl
  | @cons group piece rest groups h hrest ih =>
      cases hgroup : group.input? with
      | none =>
          rw [parseFrom_option_append h hgroup, ih, inputs_take hgroup,
            List.foldl_cons]
      | some path =>
          cases h
          case input path' hpath =>
            rw [List.singleton_append, parseFrom_input_cons hpath]
            by_cases hinput : request.input = none
            · rw [if_pos hinput, ih, inputs_take_input hinput, List.foldl_cons]
            · obtain ⟨other, hother⟩ := Option.ne_none_iff_exists'.1 hinput
              have hmore :
                  ¬ (request.inputs (.input path' :: groups)).length ≤ 1 := by
                simp [inputs, hother, ArgGroup.input?]
              rw [if_neg hinput, if_neg hmore]
          all_goals cases hgroup

/-- Arguments that can be taken fall into groups.  Where a run stops there is
nothing to show, and where it goes on it has taken one group. -/
theorem exists_fallsInto_of_parseFrom_eq_ok {request result : Request}
    {args : List String} (h : parseFrom request args = .ok result) :
    ∃ groups, FallsInto args groups := by
  fun_induction parseFrom request args
  case case1 request => exact ⟨[], .nil⟩
  case case2 request name rest hkind ih =>
    obtain ⟨groups, hgroups⟩ := ih h
    exact ⟨_, .cons (.help (Argument.describes_of_ofString hkind)) hgroups⟩
  case case3 request name rest hkind ih =>
    obtain ⟨groups, hgroups⟩ := ih h
    exact ⟨_, .cons (.version (Argument.describes_of_ofString hkind)) hgroups⟩
  case case4 request name rest hkind ih =>
    obtain ⟨groups, hgroups⟩ := ih h
    exact ⟨_, .cons (.verbose (Argument.describes_of_ofString hkind)) hgroups⟩
  case case6 request name hkind path rest ih =>
    obtain ⟨groups, hgroups⟩ := ih h
    exact ⟨_, .cons (.output (Argument.describes_of_ofString hkind) path) hgroups⟩
  case case8 request name hkind directory rest ih =>
    obtain ⟨groups, hgroups⟩ := ih h
    exact ⟨_,
      .cons (.runtime (Argument.describes_of_ofString hkind) directory) hgroups⟩
  case case11 request name hkind value rest width hvalue ih =>
    obtain ⟨groups, hgroups⟩ := ih h
    obtain ⟨hnumeral, hlt⟩ := Text.unsigned?_eq_some_iff.1 hvalue
    have hbound : width ≤ 2 ^ 64 - 1 := Nat.le_sub_one_of_lt hlt
    obtain rfl : name = "--indent" := Argument.describes_of_ofString hkind
    exact ⟨_, .cons (.indent hnumeral hbound) hgroups⟩
  case case14 request path rest hkind hinput ih =>
    obtain ⟨groups, hgroups⟩ := ih h
    exact ⟨_, .cons (.input (Argument.describes_of_ofString hkind)) hgroups⟩
  -- Everywhere else the run has stopped with a fault.
  all_goals cases h

end Request

/-! ## One way to fall into groups -/

theorem Text.Numeral.unique {text : Text} {m n : Nat}
    (hm : Text.Numeral text m) (hn : Text.Numeral text n) : m = n :=
  (Text.numeral_iff_dropPlus.1 hm).2.2.symm.trans
    (Text.numeral_iff_dropPlus.1 hn).2.2

/-- A group and the place where it ends are determined by the arguments. -/
theorem ArgGroup.Spells.append_inj {group group' : ArgGroup}
    {piece piece' rest rest' : List String} (h : group.Spells piece)
    (h' : group'.Spells piece') (heq : piece ++ rest = piece' ++ rest') :
    group = group' ∧ rest = rest' := by
  obtain ⟨first, more, rfl⟩ := h.exists_cons
  obtain ⟨first', more', rfl⟩ := h'.exists_cons
  have hkind : group.kind = group'.kind := by
    rw [← ofString_of_spells h, ← ofString_of_spells h', (List.cons.inj heq).1]
  cases h <;> cases h' <;> try cases hkind
  case indent.indent hvalue hbound _ _ hvalue' hbound' =>
    cases heq
    rw [hvalue.unique hvalue']
    exact ⟨rfl, rfl⟩
  all_goals
    cases heq
    exact ⟨rfl, rfl⟩

theorem FallsInto.groups_eq {args args' : List String}
    {groups groups' : List ArgGroup} (h : FallsInto args groups)
    (h' : FallsInto args' groups') (heq : args = args') : groups = groups' := by
  -- The arguments are no constructor form (`piece ++ rest`), so that the two
  -- readings are of the same arguments is kept as an equation.
  induction h generalizing args' groups' with
  | nil =>
      cases h' with
      | nil => rfl
      | cons h' hrest' =>
          obtain ⟨first, more, rfl⟩ := h'.exists_cons
          cases heq
  | cons h hrest ih =>
      cases h' with
      | nil =>
          obtain ⟨first, more, rfl⟩ := h.exists_cons
          cases heq
      | cons h' hrest' =>
          obtain ⟨rfl, hargs⟩ := h.append_inj h' heq
          rw [ih hrest' hargs]

/-! ## What the groups ask for -/

/-- What groups ask for.  A later value replaces an earlier one of its kind, and
what no group mentions is as by default. -/
def Request.asked (groups : List ArgGroup) : Request where
  settings :=
    { fragmentDirectory :=
        (groups.filterMap ArgGroup.runtime?).getLast?.getD "source"
      output := (groups.filterMap ArgGroup.output?).getLast?
      indent := (groups.filterMap ArgGroup.indent?).getLast?.getD 4
      verbose := decide (.verbose ∈ groups) }
  input := (groups.filterMap ArgGroup.input?).getLast?
  help := decide (.help ∈ groups)
  version := decide (.version ∈ groups)

theorem Request.foldl_take_eq_asked (groups : List ArgGroup) :
    groups.foldl Request.take {} = Request.asked groups := by
  induction groups using List.reverseRecOn with
  | nil => rfl
  | append_singleton groups group ih =>
      rw [List.foldl_append, ih]
      cases group <;>
        simp [Request.take, Request.asked, ArgGroup.runtime?, ArgGroup.output?,
          ArgGroup.indent?, ArgGroup.input?]

/-! ## Groups in another order -/

/-- The groups of each kind are the same, in the same order.  How kinds are
mixed does not matter. -/
def Reordered (groups groups' : List ArgGroup) : Prop :=
  ∀ kind, groups.filter (fun group => group.kind = kind) =
    groups'.filter (fun group => group.kind = kind)

section Reordered

variable {groups groups' : List ArgGroup}

/-- What is looked up in groups of one kind only. -/
theorem Reordered.filterMap_eq {α : Type} (h : Reordered groups groups')
    (kind : Argument) {f : ArgGroup → Option α}
    (hf : ∀ group value, f group = some value → group.kind = kind) :
    groups.filterMap f = groups'.filterMap f := by
  have hfilter : ∀ items : List ArgGroup,
      (items.filter fun group => group.kind = kind).filterMap f =
        items.filterMap f := by
    intro items
    rw [List.filterMap_filter]
    congr 1
    funext group
    cases hvalue : f group with
    | none => simp
    | some value => simp [hf group value hvalue]
  rw [← hfilter groups, h kind, hfilter groups']

theorem Reordered.mem_iff (h : Reordered groups groups') (group : ArgGroup) :
    group ∈ groups ↔ group ∈ groups' := by
  have hfilter : ∀ items : List ArgGroup,
      group ∈ items ↔ group ∈ items.filter fun g => g.kind = group.kind := by
    intro items
    simp
  rw [hfilter groups, h group.kind, ← hfilter groups']

theorem Reordered.inputs_eq (h : Reordered groups groups') :
    groups.filterMap ArgGroup.input? = groups'.filterMap ArgGroup.input? := by
  apply h.filterMap_eq .input
  intro group value hvalue
  cases group with
  | input _ => rfl
  | _ => cases hvalue

theorem Reordered.asked_eq (h : Reordered groups groups') :
    Request.asked groups = Request.asked groups' := by
  have houtput : groups.filterMap ArgGroup.output? =
      groups'.filterMap ArgGroup.output? := by
    apply h.filterMap_eq .output
    intro group value hvalue
    cases group with
    | output _ => rfl
    | _ => cases hvalue
  have hruntime : groups.filterMap ArgGroup.runtime? =
      groups'.filterMap ArgGroup.runtime? := by
    apply h.filterMap_eq .runtime
    intro group value hvalue
    cases group with
    | runtime _ => rfl
    | _ => cases hvalue
  have hindent : groups.filterMap ArgGroup.indent? =
      groups'.filterMap ArgGroup.indent? := by
    apply h.filterMap_eq .indent
    intro group value hvalue
    cases group with
    | indent _ => rfl
    | _ => cases hvalue
  simp only [Request.asked, houtput, hruntime, hindent, h.inputs_eq, h.mem_iff]

end Reordered

/-! ## The grammar -/

theorem Request.parse_of_fallsInto {args : List String}
    {groups : List ArgGroup} (h : FallsInto args groups) :
    Request.parse args =
      if (groups.filterMap ArgGroup.input?).length ≤ 1 then
        .ok (Request.asked groups)
      else .error .secondInput := by
  rw [Request.parse, Request.parseFrom_of_fallsInto h,
    Request.foldl_take_eq_asked]
  rfl

/--
Arguments can be taken exactly if they fall into groups with one input at most,
and then they ask for what the groups ask for: a flag is set if its group
occurs, and a value is the last one of its kind.  They fall into groups in one
way only.  Groups in another order, but in the same order within each kind, are
taken alike.
-/
theorem parse_accepts_exactly_groups :
    (∀ (args : List String) (request : Request),
      Request.parse args = .ok request ↔
        ∃ groups, FallsInto args groups ∧
          (groups.filterMap ArgGroup.input?).length ≤ 1 ∧
          request = Request.asked groups) ∧
    (∀ (args : List String) (groups groups' : List ArgGroup),
      FallsInto args groups → FallsInto args groups' → groups = groups') ∧
    ∀ (args args' : List String) (groups groups' : List ArgGroup),
      FallsInto args groups → FallsInto args' groups' →
      Reordered groups groups' → Request.parse args = Request.parse args' := by
  refine ⟨?_, ?_, ?_⟩
  · intro args request
    constructor
    · intro h
      obtain ⟨groups, hgroups⟩ :=
        Request.exists_fallsInto_of_parseFrom_eq_ok h
      rw [Request.parse_of_fallsInto hgroups] at h
      split at h
      · rename_i hone
        exact ⟨groups, hgroups, hone, (Except.ok.inj h).symm⟩
      · cases h
    · rintro ⟨groups, hgroups, hone, rfl⟩
      rw [Request.parse_of_fallsInto hgroups, if_pos hone]
  · intro args groups groups' h h'
    exact h.groups_eq h' rfl
  · intro args args' groups groups' h h' hreordered
    rw [Request.parse_of_fallsInto h, Request.parse_of_fallsInto h',
      hreordered.inputs_eq, hreordered.asked_eq]

/-- Values that look like options, an empty input, and a number at its limit
with a sign and leading zeros in front.  The same groups are then mixed in
another way. -/
theorem parse_accepts_exactly_groups_mixed :
    let args := ["-o", "-h", "--indent", "2", "", "-v", "--output", "--indent",
      "--indent", "+0018446744073709551615"]
    let mixed := ["--indent", "2", "--indent", "+0018446744073709551615", "-v",
      "-o", "-h", "", "--output", "--indent"]
    let request : Request :=
      { settings :=
          { output := some "--indent"
            indent := 18446744073709551615
            verbose := true }
        input := some "" }
    Request.parse args = .ok request ∧ Request.parse mixed = .ok request := by
  intro args mixed request
  obtain ⟨hgrammar, -, hreordered⟩ := parse_accepts_exactly_groups
  have htwo : Text.Numeral "2".toList 2 :=
    Text.numeral_iff_dropPlus.2 (by decide)
  have hlimit : Text.Numeral "+0018446744073709551615".toList
      18446744073709551615 :=
    Text.numeral_iff_dropPlus.2 (by decide)
  have hargs : FallsInto args _ :=
    .cons (.output (by decide) "-h") <| .cons (.indent htwo (by decide)) <|
    .cons (.input (by decide)) <| .cons (.verbose (by decide)) <|
    .cons (.output (by decide) "--indent") <|
    .cons (.indent hlimit (by decide)) .nil
  have hmixed : FallsInto mixed _ :=
    .cons (.indent htwo (by decide)) <| .cons (.indent hlimit (by decide)) <|
    .cons (.verbose (by decide)) <| .cons (.output (by decide) "-h") <|
    .cons (.input (by decide)) <| .cons (.output (by decide) "--indent") .nil
  have hparse : Request.parse args = .ok request :=
    (hgrammar args request).2 ⟨_, hargs, by decide, rfl⟩
  have hsame := hreordered args mixed _ _ hargs hmixed (by
    intro kind
    cases kind <;> decide)
  exact ⟨hparse, hsame ▸ hparse⟩

end Lowering
