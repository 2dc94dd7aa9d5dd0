import Derivatives.Number.Encoding

/-!
# Operators

The four arithmetic operators, their symbols and their effect on doubles.
-/

namespace Derivatives

/-- An arithmetic operator. -/
inductive Operator
  | add
  | sub
  | mul
  | div
  deriving DecidableEq, Repr

namespace Operator

/-- The symbol an operator is written with. -/
def symbol : Operator → Char
  | add => '+'
  | sub => '-'
  | mul => '*'
  | div => '/'

/-- The operator written with a symbol. -/
def ofSymbol? : Char → Option Operator
  | '+' => some add
  | '-' => some sub
  | '*' => some mul
  | '/' => some div
  | _ => none

/-- The word for an operator. -/
def word : Operator → String
  | add => "Add"
  | sub => "Sub"
  | mul => "Mul"
  | div => "Div"

/-- Whether an operator joins the terms of a sum, rather than the factors of a
    term. -/
def isAdditive : Operator → Bool
  | add | sub => true
  | mul | div => false

/-- The result of an operator. A quotient by zero, of either sign, is no number. -/
def apply (op : Operator) (x y : Float) : Float :=
  match op with
  | add => x + y
  | sub => x - y
  | mul => x * y
  | div => if y == 0.0 then Number.nan else x / y

theorem ofSymbol?_symbol (op : Operator) : ofSymbol? op.symbol = some op := by
  cases op <;> rfl

end Operator

end Derivatives
