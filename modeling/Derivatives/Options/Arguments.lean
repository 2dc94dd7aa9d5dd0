import Derivatives.Number.Display
import Derivatives.Options

/-!
# Arguments

The options as they are given on the command line, read from left to right
(`Options.ofArguments`). A value that stands in an argument of its own is only
looked at when the next option or the expression comes, or the arguments end
(`Scan.settle`); an argument that is wrong by itself is reported before that.
-/

namespace Derivatives

/-- Why the arguments give no options. -/
inductive ArgumentError
  /-- An argument that is not expected. -/
  | unknownArgument
  /-- An option without the value it needs. -/
  | invalidValue
  /-- A value for an option that takes none. -/
  | tooManyValues
  /-- An option given twice. -/
  | argumentConflict
  /-- A value that is not a number. -/
  | valueValidation
  /-- The help text is asked for instead. -/
  | displayHelp
  /-- The version is asked for instead. -/
  | displayVersion
  deriving DecidableEq, Repr

/-- A value announced by `--at` that has not been looked at yet. -/
inductive Unsettled
  /-- There is none. -/
  | nothing
  /-- The value is still missing. -/
  | missing
  /-- The value is this text. -/
  | value (text : String)
  deriving DecidableEq, Repr

/-- What the arguments so far have given. -/
structure Scan where
  /-- The options so far. -/
  options : Options := {}
  /-- Whether the value of the variable has been given. -/
  pointGiven : Bool := false
  /-- The value announced. -/
  unsettled : Unsettled := .nothing
  /-- Whether `--` has come, after which nothing is an option. -/
  trailing : Bool := false

namespace Scan

/-- Takes the value of the variable from a text. -/
def setPoint (scan : Scan) (text : String) : Except ArgumentError Scan :=
  if scan.pointGiven then .error .argumentConflict
  else
    match Number.read? text with
    | none => .error .valueValidation
    | some x => .ok { scan with pointGiven := true, options.point := x }

/-- Looks at the value announced, if there is one. -/
def settle (scan : Scan) : Except ArgumentError Scan :=
  match scan.unsettled with
  | .nothing => .ok scan
  | .missing => .error .invalidValue
  | .value text => { scan with unsettled := .nothing }.setPoint text

/-- An option that is there or not. -/
inductive Flag
  | listExpression
  | evaluate
  | json
  deriving DecidableEq, Repr

/-- Whether a flag is set. -/
def Flag.isSet (options : Options) : Flag → Bool
  | listExpression => options.listExpression
  | evaluate => options.evaluate
  | json => options.json

/-- Sets a flag. -/
def Flag.set (options : Options) : Flag → Options
  | listExpression => { options with listExpression := true }
  | evaluate => { options with evaluate := true }
  | json => { options with json := true }

/-- A flag may be given once. -/
def flag (scan : Scan) (f : Flag) : Except ArgumentError Scan := do
  let scan ← scan.settle
  if f.isSet scan.options then .error .argumentConflict
  else .ok { scan with options := f.set scan.options }

/-- What an option with a long name asks for. -/
inductive LongOption
  /-- The value of the variable. -/
  | point
  /-- A flag. -/
  | flag (f : Flag)
  /-- Another text instead of an answer. -/
  | display (error : ArgumentError)
  deriving DecidableEq, Repr

/-- The options by their names. -/
def longOption? (name : String) : Option LongOption :=
  match name with
  | "at" => some .point
  | "show-original" => some (.flag .listExpression)
  | "evaluate" => some (.flag .evaluate)
  | "json" => some (.flag .json)
  | "help" => some (.display .displayHelp)
  | "version" => some (.display .displayVersion)
  | _ => none

/-- An argument `--name` or `--name=value`. -/
def long (scan : Scan) (name : String) (value : Option String) : Except ArgumentError Scan :=
  match longOption? name, value with
  | none, _ => .error .unknownArgument
  | some .point, some value => do (← scan.settle).setPoint value
  | some .point, none => do return { (← scan.settle) with unsettled := .missing }
  | some (.flag _), some _ => .error .tooManyValues
  | some (.flag f), none => scan.flag f
  | some (.display _), some _ => .error .tooManyValues
  | some (.display error), none => do let _ ← scan.settle; .error error

/-- An argument of single letters, of which the first one decides. -/
def short (scan : Scan) (letter : Char) : Except ArgumentError Scan :=
  match letter with
  | 'h' => do let _ ← scan.settle; .error .displayHelp
  | 'V' => do let _ ← scan.settle; .error .displayVersion
  | _ => .error .unknownArgument

/-- An argument that is no option: the expression, unless there is one already. -/
def positional (scan : Scan) (argument : String) : Except ArgumentError Scan :=
  if scan.options.expression.isSome then .error .unknownArgument
  else do
    let scan ← scan.settle
    return { scan with options.expression := some argument }

/-- Whether a text can be the value of an option although a minus sign stands in
    front of it: digits, a fraction, an exponent without a sign. -/
def isPlainNumber (cs : List Char) : Bool :=
  let (numeral, rest) := Number.Numeral.scan cs
  rest.isEmpty && !numeral.whole.isEmpty && (numeral.exponent.bind (·.sign)).isNone

/-- The name and the value of a long option. -/
def splitLong (cs : List Char) : String × Option String :=
  let value := match cs.dropWhile (· ≠ '=') with
    | [] => none
    | _ :: value => some (String.ofList value)
  (String.ofList (cs.takeWhile (· ≠ '=')), value)

/-- An argument that is a value, if one is missing, and else no option. -/
def plain (scan : Scan) (argument : String) : Except ArgumentError Scan :=
  if scan.unsettled = .missing then .ok { scan with unsettled := .value argument }
  else scan.positional argument

/-- The next argument. -/
def argument (scan : Scan) (argument : String) : Except ArgumentError Scan :=
  if scan.trailing then scan.positional argument
  else
    match argument.toList with
    | ['-', '-'] => .ok { scan with trailing := true }
    | '-' :: '-' :: cs => scan.long (splitLong cs).1 (splitLong cs).2
    | '-' :: c :: cs =>
      if scan.unsettled = .missing ∧ isPlainNumber (c :: cs) then scan.plain argument
      else scan.short c
    | _ => scan.plain argument

end Scan

/-- The options that arguments give. -/
def Options.ofArguments (arguments : List String) : Except ArgumentError Options := do
  let scan ← arguments.foldlM Scan.argument {}
  return (← scan.settle).options

end Derivatives
