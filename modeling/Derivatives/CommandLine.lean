import Derivatives.Options.Arguments
import Derivatives.Session

/-!
# The command line

The program as a function of its arguments and its input (`CommandLine.run`), and as
what it does at a terminal (`CommandLine.interact`).
-/

namespace Derivatives.CommandLine

/-- What a run of the program leaves. -/
structure Result where
  /-- The exit code. -/
  exitCode : UInt8
  /-- The bytes written to the standard output. -/
  output : ByteArray
  /-- The line written to the standard error, if there is one. -/
  complaint : Option String

/-- The name and the version of the program. -/
def version : String := "symdiff 0.1.0\n"

/-- The description of the arguments, line by line. -/
def helpLines : List String :=
  ["Differentiate arithmetic expressions in x",
    "",
    "Usage: symdiff [OPTIONS] [EXPRESSION]",
    "",
    "Arguments:",
    "  [EXPRESSION]  Differentiate this expression and exit instead of prompting",
    "",
    "Options:",
    "      --at <AT>        Value announced for x in the stack-machine listing [default: 0]",
    "      --show-original  Also list the stack code of the expression itself",
    "      --evaluate       Also print the value of the derivative at x",
    "      --json           Print one JSON object per line",
    "  -h, --help           Print help",
    "  -V, --version        Print version"]

/-- The description of the arguments. -/
def help : String := String.join (helpLines.map (· ++ "\n"))

end CommandLine

namespace ArgumentError

/-- The exit code: only a text that was asked for is a success. -/
def exitCode : ArgumentError → UInt8
  | displayHelp | displayVersion => 0
  | _ => 2

/-- The text that was asked for. -/
def output : ArgumentError → String
  | displayHelp => CommandLine.help
  | displayVersion => CommandLine.version
  | _ => ""

end ArgumentError

namespace CommandLine

/-- What an error that ends the program is announced with. -/
def complaint (error : Error) : String := "symdiff: " ++ error.message

/-- The exit code and the complaint a program ends with, given whether all went
    well. -/
def conclude (result : Except Error Bool) : UInt8 × Option String :=
  match result with
  | .ok true => (0, none)
  | .ok false => (2, none)
  | .error error => (1, some (complaint error))

/-- Runs the program on its input. -/
def run (arguments : List String) (input : List UInt8) : Result :=
  match Options.ofArguments arguments with
  | .error error => ⟨error.exitCode, error.output.toUTF8, none⟩
  | .ok options =>
    let (result, sink) := match options.expression with
      | some expression => Session.handleOnce options {} expression
      | none =>
        let (result, sink) := Session.run options {} (Event.ofBytes input)
        (result.map fun _ => true, sink)
    let (exitCode, complaint) := conclude result
    ⟨exitCode, sink.written, complaint⟩

/-- Runs the program at a terminal; the exit code, and the complaint if there is one. -/
@[specialize]
def interact {m : Type → Type} [Monad m] (terminal : Terminal m) (arguments : List String) :
    m (UInt8 × Option String) := do
  match Options.ofArguments arguments with
  | .error error =>
    terminal.put error.output.toUTF8
    return (error.exitCode, none)
  | .ok options =>
    match options.expression with
    | some expression =>
      let (result, sink) := Session.handleOnce options {} expression
      terminal.put sink.written
      return conclude result
    | none =>
      let result ← Session.converse terminal options
      return conclude (result.map fun _ => true)

end CommandLine

end Derivatives
