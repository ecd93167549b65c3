import Lowering.Build
import Lowering.Text.Decimal

/-!
# The command line

Arguments are taken from left to right.  The first that cannot be taken decides
the complaint, whatever comes after it; an option that takes a value takes the
next argument, however that looks.  When all could be taken, help comes before
the version, and both before a build.

A report has what the command itself writes to its streams.  The log is left
out.  It goes to the error stream as well, when `--verbose` or the environment
asks for it, but its lines carry time stamps, and nothing depends on it.  So the
option only sets a field of the settings, and a command that succeeds reports an
empty error stream.
-/

namespace Lowering

/-- What can be wrong with the arguments. -/
inductive UsageFault where
  | outputWithoutPath
  | runtimeWithoutDirectory
  | indentWithoutValue
  | badIndent (value : String)
  | unknownOption (option : String)
  | secondInput
  | noInput
deriving DecidableEq

def UsageFault.message : UsageFault → String
  | .outputWithoutPath => "--output requires a path"
  | .runtimeWithoutDirectory => "--runtime requires a directory"
  | .indentWithoutValue => "--indent requires a value"
  | .badIndent value => "invalid --indent value: " ++ value
  | .unknownOption option => "unknown option: " ++ option
  | .secondInput => "only one AST file may be given"
  | .noInput => "no AST file given (see --help)"

/-- What an argument is by itself. -/
inductive Argument where
  | help
  | version
  | verbose
  | output
  | runtime
  | indent
  | unknown
  | input

def Argument.ofString (text : String) : Argument :=
  match text with
  | "-h" | "--help" => .help
  | "-V" | "--version" => .version
  | "-v" | "--verbose" => .verbose
  | "-o" | "--output" => .output
  | "-r" | "--runtime" => .runtime
  | "--indent" => .indent
  | text => if text.toList.head? = some '-' then .unknown else .input

/-- What the arguments ask for. -/
structure Request where
  settings : Settings := {}
  input : Option String := none
  help : Bool := false
  version : Bool := false

/-- Indentations fit a machine word. -/
def indentBound : Nat := UInt64.size

namespace Request

/-- Takes the arguments one after the other, on top of what was asked for before
them. -/
def parseFrom (request : Request) : List String → Except UsageFault Request
  | [] => .ok request
  | arg :: rest =>
      match Argument.ofString arg with
      | .help => parseFrom { request with help := true } rest
      | .version => parseFrom { request with version := true } rest
      | .verbose => parseFrom { request with settings.verbose := true } rest
      | .output =>
          match rest with
          | [] => .error .outputWithoutPath
          | path :: rest =>
              parseFrom { request with settings.output := some path } rest
      | .runtime =>
          match rest with
          | [] => .error .runtimeWithoutDirectory
          | directory :: rest =>
              parseFrom
                { request with settings.fragmentDirectory := directory } rest
      | .indent =>
          match rest with
          | [] => .error .indentWithoutValue
          | value :: rest =>
              match Text.unsigned? indentBound value.toList with
              | none => .error (.badIndent value)
              | some width =>
                  parseFrom { request with settings.indent := width } rest
      | .unknown => .error (.unknownOption arg)
      | .input =>
          match request.input with
          | some _ => .error .secondInput
          | none => parseFrom { request with input := some arg } rest

def parse (args : List String) : Except UsageFault Request :=
  parseFrom {} args

end Request

/-! ## Reports -/

/-- What a command leaves behind on its streams, log lines apart, and its exit
code. -/
structure Report where
  code : UInt32
  stdout : String
  stderr : String
deriving DecidableEq

namespace Report

def success (printed : String) : Report where
  code := 0
  stdout := printed
  stderr := ""

/-- Notes, and below them a message in red. -/
def failure (notes message : String) : Report where
  code := 1
  stdout := ""
  stderr := notes ++ "\x1b[31mError: " ++ message ++ "\x1b[0m\n"

def ofUsageFault (fault : UsageFault) : Report :=
  failure "" fault.message

/-- An error, below the text of its context if it has one. -/
def ofError (error : Error) : Report :=
  match error.context with
  | none => failure "" error.message
  | some context => failure (context.text ++ "\n") error.message

end Report

def versionText : String := "lumenc 0.1.0\n"

def helpText : String :=
  "\x1b[1mlumenc\x1b[0m - Compile a parsed Lumen program to C\n"
    ++ "\n"
    ++ "\x1b[1mUSAGE:\x1b[0m\n"
    ++ "    lumenc [OPTIONS] <AST_FILE>\n"
    ++ "\n"
    ++ "\x1b[1mARGUMENTS:\x1b[0m\n"
    ++ "    <AST_FILE>    MessagePack program produced by the Lumen parser\n"
    ++ "\n"
    ++ "\x1b[1mOPTIONS:\x1b[0m\n"
    ++ "    -h, --help           Print help information\n"
    ++ "    -V, --version        Print version information\n"
    ++ "    -o, --output PATH    Write C source to PATH instead of stdout\n"
    ++ "    -r, --runtime DIR    Read runtime fragments from DIR (default: ./source)\n"
    ++ "    --indent N           Spaces per indentation level (default: 4)\n"
    ++ "    -v, --verbose        Log each compiled function to stderr\n"
    ++ "\n"
    ++ "\x1b[1mENVIRONMENT:\x1b[0m\n"
    ++ "    RUST_LOG             Overrides the log filter, e.g. RUST_LOG=lumen_language=trace\n"
    ++ "\n"
    ++ "\x1b[1mEXAMPLES:\x1b[0m\n"
    ++ "    lumenc prog.ast                  Print C for prog.ast\n"
    ++ "    lumenc -o prog.c prog.ast        Write C to prog.c\n"
    ++ "    lumenc -r runtime/ prog.ast      Use fragments from runtime/\n"

/-- Builds what is asked for. -/
def Store.buildRequest (store : Store) (request : Request) : Report × Store :=
  match request.input with
  | none => (.ofUsageFault .noInput, store)
  | some input =>
      match store.build request.settings input with
      | (.error error, after) => (.ofError error, after)
      | (.ok printed, after) => (Report.success (String.ofList printed), after)

/-- Runs the command. -/
def Store.command (store : Store) (args : List String) : Report × Store :=
  match Request.parse args with
  | .error fault => (.ofUsageFault fault, store)
  | .ok request =>
      if request.help then (Report.success helpText, store)
      else if request.version then (Report.success versionText, store)
      else store.buildRequest request

end Lowering
