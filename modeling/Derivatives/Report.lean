import Derivatives.Expr.Derivative
import Derivatives.Expr.Infix
import Derivatives.Json
import Derivatives.Options
import Derivatives.StackCode

/-!
# Reports

What is said about one expression (`Report`): its infix form, that of its
derivative, the stack code of the derivative, and what else the options ask for;
and how it is written, as lines for a reader or as a JSON text.
-/

namespace Derivatives

/-- What is said about an expression. -/
structure Report where
  /-- The infix form of the expression. -/
  expression : String
  /-- The infix form of its derivative. -/
  derivative : String
  /-- The stack code of its derivative. -/
  commands : List Command
  /-- The stack code of the expression, if it is asked for. -/
  expressionCommands : Option (List Command)
  /-- The value of the derivative, if it is asked for. -/
  value : Option Float
  deriving DecidableEq

/-- A command as a JSON value. -/
def Command.toJson : Command → Json
  | push number => .object [("Push", .number number)]
  | value x => .object [("Value", .number x)]
  | operator op => .object [("Operator", .string op.word)]
  | unaryMinus => .string "UnaryMinus"

/-- A list of commands as a JSON value. -/
def commandsJson (commands : List Command) : Json := .array (commands.map Command.toJson)

namespace Report

/-- The report on an expression. -/
def ofExpr (options : Options) (e : Expr) : Report :=
  let d := e.derivative
  { expression := e.render
    derivative := d.render
    commands := d.commands options.point
    expressionCommands :=
      if options.listExpression then some (e.commands options.point) else none
    value := if options.evaluate then some (d.eval options.point) else none }

/-- A report as a JSON value. -/
def toJson (report : Report) : Json :=
  .object <|
    [("expression", .string report.expression),
      ("derivative", .string report.derivative),
      ("commands", commandsJson report.commands)] ++
    (report.expressionCommands.map fun commands =>
      ("original_commands", commandsJson commands)).toList ++
    (report.value.map fun value => ("value", Json.number value)).toList

/-- A line of a listing. -/
def commandLine (command : Command) : String := "  " ++ command.text ++ "\n"

/-- A report for a reader, piece by piece; `point` is where the value was taken. -/
def pieces (point : Float) (report : Report) : List String :=
  let listing := match report.expressionCommands with
    | none => []
    | some commands =>
      "\nOrder of postfix evaluation is:\n\n" :: commands.map commandLine ++
        ["\nStack code of the derivative:\n\n"]
  let value := match report.value with
    | none => []
    | some value =>
      ["Derivative at x = " ++ Number.display point ++ " is " ++ Number.display value ++ "\n"]
  listing ++ report.commands.map commandLine ++
    ["\nValue is " ++ report.derivative ++ "\n"] ++ value

end Report

end Derivatives
