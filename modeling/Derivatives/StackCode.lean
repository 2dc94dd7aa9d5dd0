import Derivatives.Expr
import Derivatives.Number.Display

/-!
# Stack code

The code for a machine that computes with a stack of numbers (`Command`), and
the code of an expression (`Expr.commands`): its nodes in post-order, operands
before their operator.
-/

namespace Derivatives

/-- A command of the stack machine. -/
inductive Command
  /-- Push a number. -/
  | push (number : Float)
  /-- Push the value of the variable, which is given here. -/
  | value (x : Float)
  /-- Replace the two topmost numbers by the result of an operator. -/
  | operator (op : Operator)
  /-- Negate the topmost number. -/
  | unaryMinus
  deriving DecidableEq

namespace Command

/-- The text of a command. -/
def text : Command → String
  | push number => "Push " ++ Number.display number
  | value x => "Value of x is " ++ Number.display x
  | operator op => "Operator " ++ op.symbol.toString
  | unaryMinus => "Unary minus"

end Command

namespace Expr

/-- The code of an expression, for the value `x` of the variable, in front of
    other code. -/
def commandsBefore (x : Float) : Expr → List Command → List Command
  | constant value, rest => .push value :: rest
  | var, rest => .value x :: rest
  | binary op left right, rest =>
    left.commandsBefore x (right.commandsBefore x (.operator op :: rest))
  | negate operand, rest => operand.commandsBefore x (.unaryMinus :: rest)

/-- The code of an expression, for the value `x` of the variable. -/
def commands (x : Float) (e : Expr) : List Command := e.commandsBefore x []

/-! ## The code of an expression is made of those of its operands -/

theorem commandsBefore_eq_append (x : Float) (e : Expr) (rest : List Command) :
    e.commandsBefore x rest = e.commands x ++ rest := by
  induction e generalizing rest with
  | constant value => rfl
  | var => rfl
  | binary op left right ihl ihr =>
    simp only [commands, commandsBefore]
    rw [ihl, ihr, ihl (right.commandsBefore x _), ihr [.operator op]]
    simp
  | negate operand ih =>
    simp only [commands, commandsBefore]
    rw [ih, ih [.unaryMinus]]
    simp

@[simp]
theorem commands_constant (x value : Float) : (constant value).commands x = [.push value] := rfl

@[simp]
theorem commands_var (x : Float) : var.commands x = [.value x] := rfl

@[simp]
theorem commands_binary (x : Float) (op : Operator) (left right : Expr) :
    (binary op left right).commands x = left.commands x ++ right.commands x ++ [.operator op] := by
  rw [commands, commandsBefore, commandsBefore_eq_append, commandsBefore_eq_append,
    List.append_assoc]

@[simp]
theorem commands_negate (x : Float) (operand : Expr) :
    (negate operand).commands x = operand.commands x ++ [.unaryMinus] := by
  rw [commands, commandsBefore, commandsBefore_eq_append]

end Expr

end Derivatives
