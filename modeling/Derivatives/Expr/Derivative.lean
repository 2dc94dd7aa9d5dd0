import Derivatives.Expr

/-!
# The derivative of an expression

The derivative with respect to the variable, by the rules of sums, products and
quotients. Nothing is simplified: the result has the shape the rules give it.
-/

namespace Derivatives.Expr

/-- The derivative of an expression: the rule of each node, applied to its
    operands and their derivatives. -/
def derivative : Expr → Expr
  | constant _ => constant 0.0
  | var => constant 1.0
  | negate a => negate a.derivative
  | binary .add a b => binary .add a.derivative b.derivative
  | binary .sub a b => binary .sub a.derivative b.derivative
  | binary .mul a b => binary .add (binary .mul a b.derivative) (binary .mul b a.derivative)
  | binary .div a b =>
    binary .div
      (binary .sub (binary .mul b a.derivative) (binary .mul a b.derivative))
      (binary .mul b b)

end Derivatives.Expr
