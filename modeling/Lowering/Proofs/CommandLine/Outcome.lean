import Lowering.CommandLine
import Lowering.Proofs.Build.Output

/-!
# How a command ends

A command is stopped by its arguments, or it answers a question, or it builds.
Only a build looks at files, and it can end in four ways (`BuildEnds`).  One of
them changes a file: the build has an output and succeeds.  All that is said
about exit codes, streams and files is read off these cases.

Printing and writing differ in where the text goes and in nothing else.  What is
compiled does not depend on the output, so a build that prints its text prints
what the same build with an output writes.

## Main results

* `command_of_fault`, `command_of_question`, `command_of_build` — what the
  arguments decide.
* `buildEnds_buildRequest` — every build ends in one of the four ways.
* `command_outcome_contract` — exit codes, printed texts and changed files, for
  all arguments and all stores.
-/

namespace Lowering

/-! ## Reports -/

namespace Report

/-- Reports with the exit code of a failure, and nothing printed. -/
def IsFailure (report : Report) : Prop :=
  report.code = 1 ∧ report.stdout = ""

theorem isFailure_ofUsageFault (fault : UsageFault) :
    (ofUsageFault fault).IsFailure :=
  ⟨rfl, rfl⟩

theorem isFailure_ofError (error : Error) : (ofError error).IsFailure := by
  unfold ofError
  split
  · exact ⟨rfl, rfl⟩
  · exact ⟨rfl, rfl⟩

theorem IsFailure.code_ne_zero {report : Report} (h : report.IsFailure) :
    report.code ≠ 0 := by
  rw [h.1]
  decide

end Report

/-! ## What the arguments decide -/

/-- The arguments can be taken, and ask for nothing but a build. -/
structure Request.AsksToBuild (request : Request) (args : List String) :
    Prop where
  parse_eq : Request.parse args = .ok request
  help_eq : request.help = false
  version_eq : request.version = false

/-- Arguments are faulty, ask a question, or ask to build. -/
theorem Request.parse_cases (args : List String) :
    (∃ fault, Request.parse args = .error fault) ∨
    (∃ request, Request.parse args = .ok request ∧
      (request.help = true ∨ request.version = true)) ∨
    ∃ request : Request, request.AsksToBuild args := by
  cases hparse : Request.parse args with
  | error fault => exact .inl ⟨fault, rfl⟩
  | ok request =>
      by_cases hasked : request.help = true ∨ request.version = true
      · exact .inr (.inl ⟨request, rfl, hasked⟩)
      · simp only [not_or, Bool.not_eq_true] at hasked
        exact .inr (.inr ⟨request, hparse, hasked.1, hasked.2⟩)

/-- The answer to a question; the one about help comes first. -/
def Request.answer (request : Request) : String :=
  if request.help then helpText else versionText

namespace Store

section Arguments

variable {args : List String} {request : Request}

theorem command_of_fault {fault : UsageFault}
    (h : Request.parse args = .error fault) (store : Store) :
    store.command args = (.ofUsageFault fault, store) := by
  rw [command, h]

theorem command_of_question (h : Request.parse args = .ok request)
    (hasked : request.help = true ∨ request.version = true) (store : Store) :
    store.command args = (.success request.answer, store) := by
  rw [command, h]
  cases hhelp : request.help with
  | true => simp [Request.answer, hhelp]
  | false => simp_all [Request.answer]

theorem command_of_build (h : request.AsksToBuild args) (store : Store) :
    store.command args = store.buildRequest request := by
  rw [command, h.parse_eq]
  simp [h.help_eq, h.version_eq]

end Arguments

/-! ## Builds -/

theorem compileFile_withOutput (store : Store) (settings : Settings)
    (output : Option String) (path : String) :
    store.compileFile { settings with output } path =
      store.compileFile settings path := rfl

theorem build_of_no_output {settings : Settings}
    (houtput : settings.output = none) (store : Store) (path : String) :
    store.build settings path = (store.compileFile settings path, store) := by
  rw [build, houtput]
  cases store.compileFile settings path with
  | error error => rfl
  | ok text => rfl

/-- The ways a build can end: the report, and the store afterwards. -/
inductive BuildEnds (store : Store) (request : Request) :
    Report → Store → Prop
  | lacking (hinput : request.input = none) :
      BuildEnds store request (.ofUsageFault .noInput) store
  | failed {input : String} (hinput : request.input = some input)
      {error : Error}
      (hbuild : (store.build request.settings input).1 = .error error) :
      BuildEnds store request (.ofError error) store
  | printed {input : String} (hinput : request.input = some input) {text : Text}
      (hcompile : store.compileFile request.settings input = .ok text)
      (hbuild : (store.build request.settings input).1 = .ok text)
      (houtput : request.settings.output = none) :
      BuildEnds store request (.success (String.ofList text)) store
  | written {input : String} (hinput : request.input = some input) {text : Text}
      (hcompile : store.compileFile request.settings input = .ok text)
      (hbuild : (store.build request.settings input).1 = .ok [])
      {output : String} (houtput : request.settings.output = some output)
      {after : Store}
      (hafter : store.Replaces output (Utf8.encode (String.ofList text)) after) :
      BuildEnds store request (.success "") after

theorem buildEnds_buildRequest (store : Store) (request : Request) :
    BuildEnds store request (store.buildRequest request).1
      (store.buildRequest request).2 := by
  unfold buildRequest
  cases hinput : request.input with
  | none => exact .lacking hinput
  | some input =>
      cases houtput : request.settings.output with
      | none =>
          have hbuild := build_of_no_output houtput store input
          cases hcompile : store.compileFile request.settings input with
          | error error =>
              rw [hcompile] at hbuild
              simp only [hbuild]
              exact .failed hinput (congrArg Prod.fst hbuild)
          | ok text =>
              rw [hcompile] at hbuild
              simp only [hbuild]
              exact .printed hinput hcompile (congrArg Prod.fst hbuild) houtput
      | some output =>
          rcases build_of_output houtput store input with
            ⟨error, -, hbuild⟩ | ⟨text, fault, -, -, hbuild⟩ |
              ⟨text, after, hcompile, -, hbuild, hafter⟩
          · simp only [hbuild]
            exact .failed hinput (congrArg Prod.fst hbuild)
          · simp only [hbuild]
            exact .failed hinput (congrArg Prod.fst hbuild)
          · simp only [hbuild]
            exact .written hinput hcompile (congrArg Prod.fst hbuild) houtput
              hafter

namespace BuildEnds

variable {store after : Store} {request : Request} {report : Report}

theorem code_eq_zero_or (h : BuildEnds store request report after) :
    report.code = 0 ∨ report.IsFailure ∧ after = store := by
  cases h with
  | lacking _ => exact .inr ⟨Report.isFailure_ofUsageFault _, rfl⟩
  | failed _ _ => exact .inr ⟨Report.isFailure_ofError _, rfl⟩
  | printed _ _ _ _ => exact .inl rfl
  | written _ _ _ _ _ => exact .inl rfl

theorem code_eq_zero_iff (h : BuildEnds store request report after) :
    report.code = 0 ↔
      ∃ input, request.input = some input ∧
        ∃ printed, (store.build request.settings input).1 = .ok printed := by
  cases h with
  | lacking hinput =>
      have hcode := (Report.isFailure_ofUsageFault .noInput).code_ne_zero
      simp [hcode, hinput]
  | failed hinput hbuild =>
      constructor
      · intro hcode
        exact absurd hcode (Report.isFailure_ofError _).code_ne_zero
      · rintro ⟨other, hother, printed, hprinted⟩
        rw [hinput] at hother
        cases hother
        rw [hbuild] at hprinted
        cases hprinted
  | printed hinput _ hbuild _ =>
      exact ⟨fun _ => ⟨_, hinput, _, hbuild⟩, fun _ => rfl⟩
  | written hinput _ hbuild _ _ =>
      exact ⟨fun _ => ⟨_, hinput, _, hbuild⟩, fun _ => rfl⟩

/-- A build that succeeds hands out what is compiled, in one of two ways. -/
theorem exists_text_of_code_eq_zero (h : BuildEnds store request report after)
    (hcode : report.code = 0) :
    ∃ input text, request.input = some input ∧
      store.compileFile request.settings input = .ok text ∧
      (request.settings.output = none →
        report.stdout = String.ofList text ∧ after = store) ∧
      ∀ output, request.settings.output = some output →
        report.stdout = "" ∧
        store.Replaces output (Utf8.encode (String.ofList text)) after ∧
        after.readText output = .ok text := by
  cases h with
  | lacking _ =>
      exact absurd hcode (Report.isFailure_ofUsageFault _).code_ne_zero
  | failed _ _ => exact absurd hcode (Report.isFailure_ofError _).code_ne_zero
  | printed hinput hcompile _ houtput =>
      refine ⟨_, _, hinput, hcompile, fun _ => ⟨rfl, rfl⟩, ?_⟩
      intro output hsome
      rw [houtput] at hsome
      cases hsome
  | written hinput hcompile _ houtput hafter =>
      refine ⟨_, _, hinput, hcompile, ?_, ?_⟩
      · intro hnone
        rw [houtput] at hnone
        cases hnone
      · intro output hsome
        rw [houtput] at hsome
        cases hsome
        exact ⟨rfl, hafter, hafter.readText_eq⟩

end BuildEnds

/-! ## Commands -/

theorem command_code_eq_zero_or (store : Store) (args : List String) :
    (store.command args).1.code = 0 ∨
      (store.command args).1.IsFailure ∧ (store.command args).2 = store := by
  rcases Request.parse_cases args with
    ⟨fault, hfault⟩ | ⟨request, hparse, hasked⟩ | ⟨request, hasks⟩
  · rw [command_of_fault hfault]
    exact .inr ⟨Report.isFailure_ofUsageFault fault, rfl⟩
  · rw [command_of_question hparse hasked]
    exact .inl rfl
  · rw [command_of_build hasks]
    exact (buildEnds_buildRequest store request).code_eq_zero_or

/--
The outcome of a command, for all arguments and all stores.  The exit code is 0
or 1, and with 1 nothing is printed and no file is changed.  Arguments that
cannot be taken give 1.  A question is answered, help first, with 0 and without
a look at the files.  Otherwise the exit code is 0 exactly if there is an input
and its build succeeds; then the text that is compiled is printed and no file is
changed, or with an output nothing is printed and the output holds the text.

So two commands that build the same, one with an output and one without, never
give different texts.
-/
theorem command_outcome_contract :
    (∀ (store : Store) (args : List String),
      ((store.command args).1.code = 0 ∨ (store.command args).1.code = 1) ∧
      ((store.command args).1.code = 1 →
        (store.command args).1.stdout = "" ∧ (store.command args).2 = store)) ∧
    (∀ (store : Store) (args : List String) (fault : UsageFault),
      Request.parse args = .error fault → (store.command args).1.code = 1) ∧
    (∀ (args : List String) (request : Request),
      Request.parse args = .ok request →
      request.help = true ∨ request.version = true →
      ∀ store : Store,
        (store.command args).1.code = 0 ∧
        (store.command args).1.stdout =
          (if request.help then helpText else versionText) ∧
        (store.command args).2 = store ∧
        ∀ other : Store, (other.command args).1 = (store.command args).1) ∧
    (∀ (store : Store) (args : List String) (request : Request),
      Request.parse args = .ok request →
      request.help = false → request.version = false →
      ((store.command args).1.code = 0 ↔
        ∃ input, request.input = some input ∧
          ∃ printed, (store.build request.settings input).1 = .ok printed) ∧
      ((store.command args).1.code = 0 →
        ∃ input text, request.input = some input ∧
          store.compileFile request.settings input = .ok text ∧
          (request.settings.output = none →
            (store.command args).1.stdout = String.ofList text ∧
            (store.command args).2 = store) ∧
          ∀ output, request.settings.output = some output →
            (store.command args).1.stdout = "" ∧
            store.Replaces output (Utf8.encode (String.ofList text))
              (store.command args).2 ∧
            (store.command args).2.readText output = .ok text)) ∧
    ∀ (store : Store) (args args' : List String) (request : Request)
      (output : String),
      Request.parse args = .ok request →
      Request.parse args' =
        .ok { request with settings.output := some output } →
      request.help = false → request.version = false →
      request.settings.output = none →
      (store.command args).1.code = 0 → (store.command args').1.code = 0 →
      (store.command args').2.readText output =
        .ok (store.command args).1.stdout.toList := by
  refine ⟨?_, ?_, ?_, ?_, ?_⟩
  · intro store args
    rcases command_code_eq_zero_or store args with hzero | ⟨hfailure, hstore⟩
    · refine ⟨.inl hzero, fun hone => ?_⟩
      rw [hzero] at hone
      exact absurd hone (by decide)
    · exact ⟨.inr hfailure.1, fun _ => ⟨hfailure.2, hstore⟩⟩
  · intro store args fault hfault
    rw [command_of_fault hfault]
    rfl
  · intro args request hparse hasked store
    rw [command_of_question hparse hasked store]
    refine ⟨rfl, rfl, rfl, fun other => ?_⟩
    rw [command_of_question hparse hasked other]
  · intro store args request hparse hhelp hversion
    have hends := buildEnds_buildRequest store request
    rw [command_of_build ⟨hparse, hhelp, hversion⟩]
    exact ⟨hends.code_eq_zero_iff, hends.exists_text_of_code_eq_zero⟩
  · intro store args args' request output hparse hparse' hhelp hversion hnone
      hcode hcode'
    rw [command_of_build ⟨hparse, hhelp, hversion⟩] at hcode ⊢
    rw [command_of_build ⟨hparse', hhelp, hversion⟩] at hcode' ⊢
    obtain ⟨input, text, hinput, hcompile, hprinted, -⟩ :=
      (buildEnds_buildRequest store request).exists_text_of_code_eq_zero hcode
    obtain ⟨input', text', hinput', hcompile', -, hwritten⟩ :=
      (buildEnds_buildRequest store _).exists_text_of_code_eq_zero hcode'
    -- The output plays no part in what is compiled.
    obtain rfl : input' = input :=
      Option.some.inj (hinput'.symm.trans hinput)
    obtain rfl : text' = text := by
      rw [compileFile_withOutput, hcompile] at hcompile'
      exact (Except.ok.inj hcompile').symm
    rw [(hwritten output rfl).2.2, (hprinted hnone).1, String.toList_ofList]

/-- An option without its value behind a question, two questions behind an input
that is not there, and a program that is printed and written. -/
theorem command_outcome_contract_furnished :
    let store := furnishedWith (Program.deepest 3)
    (store.command ["-h", "-o"]).1.code = 1 ∧
    (furnished.command ["prog.ast", "-V", "--help"]).1.stdout = helpText ∧
    (∃ text, store.compileFile {} "prog.ast" = .ok text ∧
      (store.command ["prog.ast"]).1.stdout = String.ofList text) ∧
    (store.command ["-o", "out.c", "prog.ast"]).2.readText "out.c" =
      .ok (store.command ["prog.ast"]).1.stdout.toList := by
  intro store
  obtain ⟨-, hfaults, hquestions, hbuilds, hsame⟩ := command_outcome_contract
  have hplain : Request.parse ["prog.ast"] =
      .ok { input := some "prog.ast" } := rfl
  have hoption : Request.parse ["-o", "out.c", "prog.ast"] =
      .ok { settings := { output := some "out.c" }, input := some "prog.ast" } :=
    rfl
  have hcode : (store.command ["prog.ast"]).1.code = 0 := by decide +kernel
  have hcode' : (store.command ["-o", "out.c", "prog.ast"]).1.code = 0 := by
    decide +kernel
  refine ⟨hfaults store _ .outputWithoutPath rfl, ?_, ?_, ?_⟩
  · exact (hquestions ["prog.ast", "-V", "--help"]
      { input := some "prog.ast", help := true, version := true } rfl (.inl rfl)
      furnished).2.1
  · obtain ⟨input, text, hinput, hcompile, hprinted, -⟩ :=
      (hbuilds store _ _ hplain rfl rfl).2 hcode
    cases hinput
    exact ⟨text, hcompile, (hprinted rfl).1⟩
  · exact hsame store _ _ _ "out.c" hplain hoption rfl rfl rfl hcode hcode'

end Store

end Lowering
