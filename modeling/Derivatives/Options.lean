import Derivatives.Number.Encoding

/-!
# Options

What the user can ask for.
-/

namespace Derivatives

/-- What the user asked for. -/
structure Options where
  /-- The one expression to derive; without it, expressions are read from the
      input. -/
  expression : Option String := none
  /-- The value of the variable. -/
  point : Float := 0.0
  /-- Whether the stack code of the expression is listed too. -/
  listExpression : Bool := false
  /-- Whether the value of the derivative is given too. -/
  evaluate : Bool := false
  /-- Whether the answers are JSON texts. -/
  json : Bool := false

end Derivatives
