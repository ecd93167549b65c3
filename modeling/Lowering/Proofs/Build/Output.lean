import Lowering.Proofs.Build.Compilation

/-!
# What a build leaves behind

A build with an output reads the files it needs, and only then writes a single
one.  Nothing can fail once that file has been opened, except on the device,
which never changes.  So a build that fails leaves the store as it was, and one
that succeeds replaces the output; it does not matter whether the output is also
one of the files that were read.

How a file is read is visible to a build only through the result.  This includes
the stage at which reading fails: a path that leads nowhere cannot be opened,
whereas a directory can, and only reading it fails.  The two kinds of fault have
nothing in common (`FileFault.stage`), so the result tells the stage.

## Main results

* `loadProgram_eq_of_read` — loading a program depends on what is read, and on
  nothing else of the store.
* `build_of_output` — the cases of a build with an output.
* `build_touches_output_only` — a build changes its output or nothing, and
  depends on its inputs only.
-/

namespace Lowering

/-- What was being done when a program could not be loaded: a fault of opening
is never one of reading.  Only `isDirectory` comes from reading a program;
`noSpace` is there because `Node.content` refuses the full device with it. -/
def FileFault.stage : FileFault → FileAction
  | .isDirectory => .reading
  | .noSpace => .reading
  | _ => .opening

namespace Store

/-! ## Reading -/

theorem stage_of_walk_eq_error {store : Store} {start : Location}
    {steps : List String} {fault : FileFault}
    (h : store.walk start steps = .error fault) : fault.stage = .opening := by
  induction steps generalizing start with
  | nil => cases h
  | cons step steps ih =>
      rw [walk] at h
      split at h
      · split at h
        · exact ih h
        · cases h
          rfl
      · cases h
        rfl
      · cases h
        rfl

theorem stage_of_resolve_eq_error {store : Store} {path : String}
    {fault : FileFault} (h : store.resolve path = .error fault) :
    fault.stage = .opening := by
  rw [resolve, follow] at h
  split at h
  · cases h
    rfl
  · split at h
    · cases h
      rfl
    · split at h
      · cases h
        rfl
      · exact stage_of_walk_eq_error h

theorem stage_of_find_eq_error {store : Store} {path : String}
    {fault : FileFault} (h : store.find path = .error fault) :
    fault.stage = .opening := by
  rw [find, bind_eq_error_iff] at h
  rcases h with h | ⟨location, -, h⟩
  · exact stage_of_resolve_eq_error h
  · split at h
    · cases h
      rfl
    · cases h
    · split at h <;> cases h
      rfl

theorem stage_of_content_eq_error {node : Node} {fault : FileFault}
    (h : node.content = .error fault) : fault.stage = .reading := by
  cases node with
  | directory =>
      cases h
      rfl
  | file content => cases h
  | fullDevice =>
      cases h
      rfl

theorem loadProgram_eq_of_read (store : Store) (path : String) :
    store.loadProgram path =
      match store.read path with
      | .ok bytes => Program.ofBytes bytes
      | .error fault => .error (fault.stage.error path fault) := by
  rw [loadProgram, read]
  cases hfind : store.find path with
  | error fault =>
      show Except.error (FileAction.opening.error path fault) =
        .error (fault.stage.error path fault)
      rw [stage_of_find_eq_error hfind]
  | ok node =>
      cases hcontent : node.content with
      | error fault =>
          have hstage := stage_of_content_eq_error hcontent
          simp only [bind, Except.bind, FileAction.attempt, Except.mapError,
            hcontent, hstage]
      | ok bytes =>
          simp only [bind, Except.bind, FileAction.attempt, Except.mapError,
            hcontent]

/-- The same files are read, as far as a compilation looks at them. -/
structure SameInputs (first second : Store) (settings : Settings)
    (path : String) : Prop where
  program : first.read path = second.read path
  fragments : ∀ fragment : Fragment,
    first.readText
        (Path.child settings.fragmentDirectory fragment.fileName) =
      second.readText
        (Path.child settings.fragmentDirectory fragment.fileName)

theorem SameInputs.compileFile_eq {first second : Store} {settings : Settings}
    {path : String} (h : SameInputs first second settings path) :
    first.compileFile settings path = second.compileFile settings path := by
  have hprogram : first.loadProgram path = second.loadProgram path := by
    rw [loadProgram_eq_of_read, h.program, loadProgram_eq_of_read]
  have hfragment : first.loadFragment settings.fragmentDirectory =
      second.loadFragment settings.fragmentDirectory := by
    funext fragment
    rw [loadFragment, h.fragments, loadFragment]
  have hfragments : first.loadFragments settings.fragmentDirectory =
      second.loadFragments settings.fragmentDirectory := by
    rw [loadFragments, hfragment, loadFragments]
  rw [compileFile, hprogram, hfragments, compileFile]

/-! ## Writing the output -/

theorem exists_unit_of_compileFile_eq_ok {store : Store} {settings : Settings}
    {path : String} {text : Text}
    (h : store.compileFile settings path = .ok text) :
    ∃ fragments program,
      Code.unit fragments settings.indent program = .ok text := by
  simp only [compileFile, bind_eq_ok_iff, mapError_eq_ok_iff] at h
  obtain ⟨-, -, program, -, fragments, -, hunit⟩ := h
  exact ⟨fragments, program, hunit⟩

/-- There is always something to write, since a unit starts with an empty
line. -/
theorem encode_ne_nil_of_compileFile_eq_ok {store : Store}
    {settings : Settings} {path : String} {text : Text}
    (h : store.compileFile settings path = .ok text) :
    Utf8.encode (String.ofList text) ≠ [] := by
  obtain ⟨fragments, program, hunit⟩ := exists_unit_of_compileFile_eq_ok h
  have htext : text ≠ [] := by
    obtain ⟨code, -, rfl⟩ := Code.unit_eq_ok_iff.1 hunit
    exact List.cons_ne_nil _ _
  intro hnil
  have hempty : String.ofList text = "" := Utf8.encode_inj.mp hnil
  have hlist := congrArg String.toList hempty
  rw [String.toList_ofList] at hlist
  exact htext hlist

/-- Either the compilation fails, or the output cannot be written, or it is
replaced by the text. -/
theorem build_of_output {settings : Settings} {output : String}
    (houtput : settings.output = some output) (store : Store) (path : String) :
    (∃ error, store.compileFile settings path = .error error ∧
      store.build settings path = (.error error, store)) ∨
    (∃ text fault, store.compileFile settings path = .ok text ∧
      store.writeFault? output = some fault ∧
      store.build settings path =
        (.error (FileAction.writingOutput.error output fault), store)) ∨
    (∃ text after, store.compileFile settings path = .ok text ∧
      store.writeFault? output = none ∧
      store.build settings path = (.ok [], after) ∧
      store.Replaces output (Utf8.encode (String.ofList text)) after) := by
  cases hcompile : store.compileFile settings path with
  | error error =>
      refine .inl ⟨error, rfl, ?_⟩
      rw [build, hcompile]
  | ok text =>
      have hcontent := encode_ne_nil_of_compileFile_eq_ok hcompile
      cases hfault : store.writeFault? output with
      | some fault =>
          refine .inr (.inl ⟨text, fault, rfl, rfl, ?_⟩)
          simp only [build, hcompile, houtput,
            write_of_writeFault?_eq_some hfault hcontent]
          rfl
      | none =>
          obtain ⟨hresult, hreplaces⟩ := write_of_writeFault?_eq_none hfault
            (Utf8.encode (String.ofList text))
          refine .inr (.inr ⟨text, _, rfl, rfl, ?_, hreplaces⟩)
          simp only [build, hcompile, houtput, hresult]
          rfl

theorem Replaces.readText_eq {store after : Store} {path : String}
    {text : Text}
    (h : store.Replaces path (Utf8.encode (String.ofList text)) after) :
    after.readText path = .ok text := by
  rw [readText, h.read_eq]
  simp only [bind, Except.bind, Utf8.decode?_encode, String.toList_ofList]

section Output

variable {settings : Settings} {output : String}
  (houtput : settings.output = some output)
include houtput

theorem build_snd_of_eq_error {store : Store} {path : String} {error : Error}
    (h : (store.build settings path).1 = .error error) :
    (store.build settings path).2 = store := by
  rcases build_of_output houtput store path with
    ⟨_, _, hbuild⟩ | ⟨_, _, _, _, hbuild⟩ | ⟨_, _, _, _, hbuild, _⟩
  · rw [hbuild]
  · rw [hbuild]
  · rw [hbuild] at h
    cases h

theorem replaces_build_of_eq_ok {store : Store} {path : String}
    {printed : Text} (h : (store.build settings path).1 = .ok printed) :
    printed = [] ∧
      ∃ text, store.compileFile settings path = .ok text ∧
        store.Replaces output (Utf8.encode (String.ofList text))
          (store.build settings path).2 := by
  rcases build_of_output houtput store path with
    ⟨_, _, hbuild⟩ | ⟨_, _, _, _, hbuild⟩ |
      ⟨text, after, htext, _, hbuild, hreplaces⟩
  · rw [hbuild] at h
    cases h
  · rw [hbuild] at h
    cases h
  · rw [hbuild] at h ⊢
    cases h
    exact ⟨rfl, text, htext, hreplaces⟩

/-- The result shows nothing of the store but how it compiles and what it says
to the output. -/
theorem build_fst_eq (store : Store) (path : String) :
    (store.build settings path).1 =
      store.compileFile settings path >>= fun _ =>
        (store.writeFault? output).elim (.ok [])
          fun fault => .error (FileAction.writingOutput.error output fault) := by
  rcases build_of_output houtput store path with
    ⟨_, hcompile, hbuild⟩ | ⟨_, _, hcompile, hfault, hbuild⟩ |
      ⟨_, _, hcompile, hfault, hbuild, _⟩
  · rw [hbuild, hcompile]
    rfl
  · rw [hbuild, hcompile, hfault]
    rfl
  · rw [hbuild, hcompile, hfault]
    rfl

theorem exists_build_fst_eq_ok_iff (store : Store) (path : String) :
    (∃ printed, (store.build settings path).1 = .ok printed) ↔
      (∃ text, store.compileFile settings path = .ok text) ∧
        store.writeFault? output = none := by
  rw [build_fst_eq houtput]
  cases store.compileFile settings path with
  | error error => simp [bind, Except.bind]
  | ok text =>
      cases store.writeFault? output with
      | none => simp [bind, Except.bind]
      | some fault => simp [bind, Except.bind]

end Output

/--
A build with an output that fails leaves the store exactly as it was.  One that
succeeds prints nothing and replaces the output by the text that compiling gives
on the store before it, and everything else stays.  It succeeds whenever the
compilation does and the output can be written.

Stores on which the program and the fragments are read alike, and which refuse
the output with the same fault or both take it, have the same result and the
same output.
-/
theorem build_touches_output_only (settings : Settings) (output path : String)
    (houtput : settings.output = some output) :
    (∀ (store : Store) error, (store.build settings path).1 = .error error →
      (store.build settings path).2 = store) ∧
    (∀ (store : Store) printed, (store.build settings path).1 = .ok printed →
      printed = [] ∧
      ∃ text, store.compileFile settings path = .ok text ∧
        store.Replaces output (Utf8.encode (String.ofList text))
          (store.build settings path).2 ∧
        (store.build settings path).2.readText output = .ok text) ∧
    (∀ store : Store, (∃ printed, (store.build settings path).1 = .ok printed) ↔
      (∃ text, store.compileFile settings path = .ok text) ∧
        store.writeFault? output = none) ∧
    (∀ first second : Store, SameInputs first second settings path →
      first.writeFault? output = second.writeFault? output →
      (first.build settings path).1 = (second.build settings path).1 ∧
      ∀ printed, (first.build settings path).1 = .ok printed →
        (first.build settings path).2.read output =
          (second.build settings path).2.read output) := by
  refine ⟨?_, ?_, fun store =>
    exists_build_fst_eq_ok_iff houtput store path, ?_⟩
  · intro store error herror
    exact build_snd_of_eq_error houtput herror
  · intro store printed hprinted
    obtain ⟨hnil, text, htext, hreplaces⟩ :=
      replaces_build_of_eq_ok houtput hprinted
    exact ⟨hnil, text, htext, hreplaces, hreplaces.readText_eq⟩
  · intro first second hinputs hfaults
    have hcompiles := hinputs.compileFile_eq
    have hresults : (first.build settings path).1 =
        (second.build settings path).1 := by
      rw [build_fst_eq houtput, build_fst_eq houtput, hcompiles, hfaults]
    refine ⟨hresults, ?_⟩
    intro printed hprinted
    obtain ⟨-, text, htext, hreplaces⟩ :=
      replaces_build_of_eq_ok houtput hprinted
    rw [hresults] at hprinted
    obtain ⟨-, other, hother, hreplaces'⟩ :=
      replaces_build_of_eq_ok houtput hprinted
    have hsame : text = other := by
      rw [hcompiles, hother] at htext
      exact (Except.ok.inj htext).symm
    rw [hreplaces.read_eq, hreplaces'.read_eq, hsame]

/-- The output is one of the fragments that are read. -/
def overwriting : Settings where
  output := some "source/entry.c"

/-- A build that fails keeps the fragment and one that succeeds overwrites it; a
file that is not read makes no difference. -/
theorem build_touches_output_only_furnished :
    ((furnishedWith misspelt).build overwriting "prog.ast").2 =
      furnishedWith misspelt ∧
    (∃ text, (furnishedWith (Program.deepest 3)).compileFile overwriting
        "prog.ast" = .ok text ∧
      ((furnishedWith (Program.deepest 3)).build overwriting
        "prog.ast").2.readText "source/entry.c" = .ok text) ∧
    ((furnishedWith (Program.deepest 3)).build overwriting "prog.ast").1 =
      (((furnishedWith (Program.deepest 3)).put ["notes"] (.file [0x21])).build
        overwriting "prog.ast").1 := by
  obtain ⟨hkept, hreplaced, -, hsame⟩ :=
    build_touches_output_only overwriting "source/entry.c" "prog.ast" rfl
  have hfails : ((furnishedWith misspelt).build overwriting "prog.ast").1 =
      .error
        { fault := .call (.undefined "pritn" 5)
          context := some
            { source := some "prog.ast", line := some 5,
              stack := ["help"] } } := by
    decide +kernel
  have hsucceeds : ((furnishedWith (Program.deepest 3)).build overwriting
      "prog.ast").1 = .ok [] := by
    decide +kernel
  refine ⟨hkept _ _ hfails, ?_, ?_⟩
  · obtain ⟨-, text, htext, -, hread⟩ := hreplaced _ _ hsucceeds
    exact ⟨text, htext, hread⟩
  · refine (hsame _ _ ⟨by decide +kernel, ?_⟩ (by decide +kernel)).1
    intro fragment
    cases fragment <;> decide +kernel

end Store

end Lowering
