import Derivatives.Operator

/-!
# Expressions

Arithmetic expressions in one variable `x`, their value (`Expr.eval`), and
their two measures: the number of nodes (`Expr.size`) and the number of levels
(`Expr.depth`).
-/

namespace Derivatives

/-- An arithmetic expression in the variable `x`. -/
inductive Expr
  /-- A number. -/
  | constant (value : Float)
  /-- The variable. -/
  | var
  /-- Two operands joined by an operator. -/
  | binary (op : Operator) (left right : Expr)
  /-- The negation of an operand. -/
  | negate (operand : Expr)
  deriving DecidableEq

namespace Expr

instance : Inhabited Expr := ⟨constant 0.0⟩

/-- The value of an expression at `x`. -/
def eval (x : Float) : Expr → Float
  | constant value => value
  | var => x
  | binary op left right => op.apply (left.eval x) (right.eval x)
  | negate operand => -operand.eval x

/-- The number of nodes of an expression. -/
def size : Expr → Nat
  | constant _ | var => 1
  | binary _ left right => left.size + right.size + 1
  | negate operand => operand.size + 1

/-- The number of levels of an expression: the nodes on its longest branch. -/
def depth : Expr → Nat
  | constant _ | var => 1
  | binary _ left right => max left.depth right.depth + 1
  | negate operand => operand.depth + 1

/-- The numbers in an expression, from left to right. -/
def constants : Expr → List Float
  | constant value => [value]
  | var => []
  | binary _ left right => left.constants ++ right.constants
  | negate operand => operand.constants

end Expr

end Derivatives
