import Lowering.Build
import Lowering.Proofs.Code.CallFaults
import Lowering.Proofs.File.Replacement
import Lowering.Proofs.Program.Truncation

/-!
# Compiling what is in files

A compilation from files goes through four stages: the settings, the program,
the fragments and the lowering.  `compileFile_eq_error_iff` says which of them
an error comes from, and all that is known about errors follows from it.  Only
the last stage knows calls and frames, and only its errors get a context.

A program that was saved is the program that is compiled, so the files between
the two can be left out: the result is that of lowering the program in memory,
with the path added to its errors.

## Main results

* `saveProgram_eq_ok` — saving replaces the file by the program.
* `compileFile_eq_error_iff` — where an error comes from.
* `compileFile_agrees_with_memory` — compiling a saved program is lowering it in
  memory.
-/

namespace Lowering

/-- In a sequence either the first step fails, or the second on its value. -/
theorem bind_eq_error_iff {ε α β : Type} {first : Except ε α}
    {next : α → Except ε β} {fault : ε} :
    first >>= next = .error fault ↔
      first = .error fault ∨
        ∃ value, first = .ok value ∧ next value = .error fault := by
  cases first with
  | error other => simp [bind, Except.bind]
  | ok value => simp [bind, Except.bind]

theorem bind_eq_ok_iff {ε α β : Type} {first : Except ε α}
    {next : α → Except ε β} {result : β} :
    first >>= next = .ok result ↔
      ∃ value, first = .ok value ∧ next value = .ok result := by
  cases first with
  | error fault => simp [bind, Except.bind]
  | ok value => simp [bind, Except.bind]

theorem mapError_eq_error_iff {ε δ α : Type} {f : ε → δ} {result : Except ε α}
    {fault : δ} :
    result.mapError f = .error fault ↔
      ∃ cause, result = .error cause ∧ fault = f cause := by
  cases result with
  | error cause => simp [Except.mapError, eq_comm]
  | ok value => simp [Except.mapError]

theorem mapError_eq_ok_iff {ε δ α : Type} {f : ε → δ} {result : Except ε α}
    {value : α} : result.mapError f = .ok value ↔ result = .ok value := by
  cases result with
  | error cause => simp [Except.mapError]
  | ok other => simp [Except.mapError]

/-- A loop that fails does so at one of its items. -/
theorem exists_of_foldlM_eq_error {ε α β : Type} {step : β → α → Except ε β}
    {items : List α} {initial : β} {fault : ε}
    (h : items.foldlM step initial = .error fault) :
    ∃ value, ∃ item ∈ items, step value item = .error fault := by
  induction items generalizing initial with
  | nil => cases h
  | cons item items ih =>
      rw [List.foldlM_cons, bind_eq_error_iff] at h
      rcases h with h | ⟨value, -, h⟩
      · exact ⟨initial, item, List.mem_cons_self, h⟩
      · obtain ⟨value, item, hmem, hitem⟩ := ih h
        exact ⟨value, item, List.mem_cons_of_mem _ hmem, hitem⟩

/-- The error is not about the program, and comes without a context. -/
def Error.Bare (error : Error) : Prop :=
  error.context = none ∧ error.isCompileError = false

theorem FileAction.bare_of_attempt_eq_error {α : Type} {action : FileAction}
    {path : String} {result : Except FileFault α} {error : Error}
    (h : action.attempt path result = .error error) : error.Bare := by
  obtain ⟨fault, -, rfl⟩ := mapError_eq_error_iff.mp h
  exact ⟨rfl, rfl⟩

namespace Store

/-! ## Saving and loading -/

/-- Only a file can take a program: the device refuses it, as there is always
something to write. -/
theorem saveProgram_eq_ok {store after : Store} {program : Program}
    {path : String} (h : store.saveProgram program path = (.ok (), after)) :
    store.Replaces path program.toBytes after := by
  rw [saveProgram] at h
  cases htarget : store.target path with
  | error fault =>
      rw [create, htarget] at h
      cases h
  | ok location =>
      have hcreate := create_eq_of_target_eq_ok htarget
      rw [hcreate] at h
      by_cases hdevice : store.node? location = some .fullDevice
      · have hfill : store.fill location program.toBytes =
            (.error .noSpace, store) := by
          rw [fill, if_pos hdevice, if_neg program.toBytes_ne_nil]
        simp only [if_pos hdevice, hfill] at h
        cases h
      · have hreplaces :=
          (replaces_fill_of_create hcreate hdevice program.toBytes).2
        simp only [Prod.mk.injEq] at h
        rwa [h.2] at hreplaces

/-! ## Where errors come from -/

theorem compileFile_eq_error_iff {store : Store} {settings : Settings}
    {path : String} {error : Error} :
    store.compileFile settings path = .error error ↔
      settings.validate = .error error ∨
      settings.validate = .ok () ∧
        (store.loadProgram path = .error error ∨
        ∃ program, store.loadProgram path = .ok program ∧
          (store.loadFragments settings.fragmentDirectory = .error error ∨
          ∃ fragments, store.loadFragments settings.fragmentDirectory =
              .ok fragments ∧
            ∃ cause, Code.unit fragments settings.indent program =
                .error cause ∧
              error = cause.locate path)) := by
  simp only [compileFile, bind_eq_error_iff, mapError_eq_error_iff]
  constructor
  · rintro (h | ⟨_, hvalid, h⟩)
    · exact .inl h
    · exact .inr ⟨hvalid, h⟩
  · rintro (h | ⟨hvalid, h⟩)
    · exact .inl h
    · exact .inr ⟨(), hvalid, h⟩

theorem bare_of_validate_eq_error {settings : Settings} {error : Error}
    (h : settings.validate = .error error) : error.Bare := by
  unfold Settings.validate at h
  split at h <;> cases h
  exact ⟨rfl, rfl⟩

theorem bare_of_loadProgram_eq_error {store : Store} {path : String}
    {error : Error} (h : store.loadProgram path = .error error) :
    error.Bare := by
  simp only [loadProgram, bind_eq_error_iff] at h
  rcases h with h | ⟨node, -, h | ⟨bytes, -, h⟩⟩
  · exact FileAction.bare_of_attempt_eq_error h
  · exact FileAction.bare_of_attempt_eq_error h
  · unfold Program.ofBytes at h
    split at h <;> cases h
    exact ⟨rfl, rfl⟩

theorem bare_of_loadFragments_eq_error {store : Store} {directory : String}
    {error : Error} (h : store.loadFragments directory = .error error) :
    error.Bare := by
  obtain ⟨fragments, fragment, -, h⟩ := exists_of_foldlM_eq_error h
  rw [bind_eq_error_iff] at h
  rcases h with h | ⟨text, -, h⟩
  · exact FileAction.bare_of_attempt_eq_error h
  · cases h

/-! ## Files and memory -/

/--
A saved program is compiled as in memory.  If it nests too deep, it is refused
when it is loaded.  Otherwise the result is that of lowering it with the
fragments that are found, except that a compile error also tells the path and
the line of the call; its frame is the first definition that fails.

Whatever is compiled, an error has a context exactly if it is a compile error.
-/
theorem compileFile_agrees_with_memory :
    (∀ (store after : Store) (settings : Settings) (program : Program)
        (path : String) (fragments : Fragments),
      program.Sized → 1 ≤ settings.indent →
      store.saveProgram program path = (.ok (), after) →
      after.loadFragments settings.fragmentDirectory = .ok fragments →
      (1023 < program.nesting → ∃ detail,
        after.compileFile settings path =
          .error { fault := .serialization detail, context := none }) ∧
      (program.nesting ≤ 1023 →
        (∀ text, Code.unit fragments settings.indent program = .ok text →
          after.compileFile settings path = .ok text) ∧
        (∀ error, Code.unit fragments settings.indent program = .error error →
          ∃ d call, Code.FailsAt program settings.indent d call error ∧
            after.compileFile settings path = .error
              { fault := error.fault
                context := some
                  { source := some path
                    line := some call.callee.line
                    stack := [d.name.text] } }))) ∧
    (∀ (store : Store) (settings : Settings) (path : String) (error : Error),
      store.compileFile settings path = .error error →
      (error.context.isSome = true ↔ error.isCompileError = true)) := by
  constructor
  · intro store after settings program path fragments hsized hindent hsave
      hfragments
    have hvalid : settings.validate = .ok () := by
      rw [Settings.validate, if_neg (by omega)]
    have hload : after.loadProgram path = Program.ofBytes program.toBytes :=
      (saveProgram_eq_ok hsave).loadProgram_eq
    constructor
    · intro hdeep
      obtain ⟨detail, hdetail⟩ := Program.refused_toBytes_of_deep hsized hdeep
      refine ⟨detail, compileFile_eq_error_iff.mpr (.inr ⟨hvalid, .inl ?_⟩)⟩
      rw [hload, hdetail]
    · intro hnesting
      rw [Program.ofBytes_toBytes_of_fits hsized hnesting] at hload
      have hcompile : after.compileFile settings path =
          (Code.unit fragments settings.indent program).mapError
            fun error => error.locate path := by
        rw [compileFile, hvalid, hload, hfragments]
        rfl
      constructor
      · intro text htext
        rw [hcompile, htext]
        rfl
      · intro error herror
        obtain ⟨d, call, hfails⟩ := Code.exists_failsAt_of_unit_eq_error herror
        refine ⟨d, call, hfails, ?_⟩
        rw [hcompile, herror, ← hfails.locate_eq path]
        rfl
  · intro store settings path error herror
    have hbare : error.Bare →
        (error.context.isSome = true ↔ error.isCompileError = true) := by
      intro h
      rw [h.1, h.2]
      simp
    rcases compileFile_eq_error_iff.mp herror with
      h | ⟨-, h | ⟨program, -, h | ⟨fragments, -, cause, hcause, rfl⟩⟩⟩
    · exact hbare (bare_of_validate_eq_error h)
    · exact hbare (bare_of_loadProgram_eq_error h)
    · exact hbare (bare_of_loadFragments_eq_error h)
    · obtain ⟨d, call, hfails⟩ := Code.exists_failsAt_of_unit_eq_error hcause
      obtain ⟨fault, -, rfl⟩ := hfails.isFault
      exact ⟨fun _ => rfl, fun _ => rfl⟩

/-! ### A directory to compile in -/

/-- A directory with the fragments, each of which names itself. -/
def furnished : Store where
  nodes := ([], .directory) :: (["source"], .directory) ::
    Fragment.all.map fun fragment =>
      (["source", fragment.fileName], .file (Utf8.encode fragment.fileName))
  here := []

def furnishedFragments : Fragments where
  utilsHeader := "utils.h".toList
  valueHeader := "value.h".toList
  utilsSource := "utils.c".toList
  valueSource := "value.c".toList
  builtinsSource := "builtins.c".toList
  entry := "entry.c".toList

/-- The same directory once a program is saved in it. -/
def furnishedWith (program : Program) : Store :=
  (furnished.saveProgram program "prog.ast").2

/-- The second definition fails, at a call within an argument. -/
def misspelt : Program :=
  [{ name := ⟨"main", 1⟩, body := [⟨⟨"help", 2⟩, []⟩] },
    { name := ⟨"help", 3⟩
      body := [⟨⟨"print", 4⟩, [.array [.call ⟨"pritn", 5⟩ []]]⟩] }]

theorem sized_misspelt : misspelt.Sized := by
  simp only [misspelt, Program.Sized, Definition.Sized, Call.Sized,
    Expr.SizedAll, Expr.Sized, Ident.Sized, List.forall_mem_cons,
    List.length_cons, List.length_nil, List.not_mem_nil, false_imp_iff,
    implies_true, and_true]
  decide

/-- A program that nests too deep, one that is lowered, one that is not, and no
program at all. -/
theorem compileFile_agrees_with_memory_furnished :
    (∃ detail, (furnishedWith (Program.deepest 1018)).compileFile {} "prog.ast" =
      .error { fault := .serialization detail }) ∧
    (∃ text, Code.unit furnishedFragments 4 (Program.deepest 3) = .ok text ∧
      (furnishedWith (Program.deepest 3)).compileFile {} "prog.ast" =
        .ok text) ∧
    (∃ d call, Code.FailsAt misspelt 4 d call
        { fault := .call (.undefined "pritn" 5)
          context := some { stack := ["help"] } } ∧
      (furnishedWith misspelt).compileFile {} "prog.ast" =
        .error
          { fault := .call (.undefined "pritn" 5)
            context := some
              { source := some "prog.ast"
                line := some call.callee.line
                stack := [d.name.text] } }) ∧
    ∃ error, furnished.compileFile {} "prog.ast" = .error error ∧
      (error.context.isSome = true ↔ error.isCompileError = true) := by
  have hdeep : 1023 < (Program.deepest 1018).nesting := by
    rw [Program.nesting_deepest]
    decide
  have hflat : (Program.deepest 3).nesting ≤ 1023 := by
    rw [Program.nesting_deepest]
    decide
  have hmissing : furnished.compileFile {} "prog.ast" =
      .error (FileAction.opening.error "prog.ast" .notFound) := by
    decide +kernel
  obtain ⟨hsaved, hcontext⟩ := compileFile_agrees_with_memory
  refine ⟨?_, ?_, ?_, _, hmissing, hcontext _ _ _ _ hmissing⟩
  · exact (hsaved furnished _ {} _ "prog.ast" furnishedFragments
      (Program.sized_deepest 1018) (by decide) rfl
      (by decide +kernel)).1 hdeep
  · have htext : ∃ text,
        Code.unit furnishedFragments 4 (Program.deepest 3) = .ok text :=
      ⟨_, rfl⟩
    obtain ⟨text, htext⟩ := htext
    refine ⟨text, htext, ?_⟩
    exact ((hsaved furnished _ {} _ "prog.ast" furnishedFragments
      (Program.sized_deepest 3) (by decide) rfl
      (by decide +kernel)).2 hflat).1 text htext
  · exact ((hsaved furnished _ {} _ "prog.ast" furnishedFragments
      sized_misspelt (by decide) rfl
      (by decide +kernel)).2 (by decide)).2 _ (by decide +kernel)

end Store

end Lowering
