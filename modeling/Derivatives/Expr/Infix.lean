import Derivatives.Expr
import Derivatives.Number.Display

/-!
# Expressions in infix form

An expression written with every operator in parentheses of its own, so that
the text shows its structure: `( ( 1 - X ) * 3 )`, `( -X )`.
-/

namespace Derivatives.Expr

/-- The infix form of an expression. -/
def render : Expr → String
  | constant value => Number.display value
  | var => "X"
  | binary op left right =>
    "( " ++ left.render ++ " " ++ op.symbol.toString ++ " " ++ right.render ++ " )"
  | negate operand => "( -" ++ operand.render ++ " )"

end Derivatives.Expr
