import Derivatives.Error
import Derivatives.StackCode

/-!
# The stack machine

A machine that executes stack code. It starts every program with an empty stack
(`Machine.execute`), so that nothing is left of an earlier one, and gives the
one value a program ends with. A command that finds too few values stops the
program, and so does a program that leaves another number of values than one.
-/

namespace Derivatives

/-- The effect of a command on a stack, the topmost number first, if the stack
    holds enough values. -/
def Command.act : Command → List Float → Option (List Float)
  | .push number, stack => some (number :: stack)
  | .value x, stack => some (x :: stack)
  | .operator op, right :: left :: stack => some (op.apply left right :: stack)
  | .unaryMinus, operand :: stack => some (-operand :: stack)
  | .operator _, _ => none
  | .unaryMinus, [] => none

/-- A stack machine. -/
structure Machine where
  /-- The numbers on the stack, the topmost one first. -/
  stack : List Float := []

namespace Machine

/-- Executes commands one after the other, up to the first that finds too few
    values, which is returned. -/
def run (machine : Machine) : List Command → Option Command × Machine
  | [] => (none, machine)
  | command :: program =>
    match command.act machine.stack with
    | some stack => run ⟨stack⟩ program
    | none => (some command, machine)

/-- Executes a program on an empty stack: its value, and the machine it leaves. -/
def execute (machine : Machine) (program : List Command) : Except Error Float × Machine :=
  let (stuck, after) := { machine with stack := [] }.run program
  let result := match stuck, after.stack with
    | some command, _ => .error (.stackUnderflow command.text)
    | none, [value] => .ok value
    | none, stack => .error (.unbalancedStack stack.length)
  (result, after)

/-- Executes programs one after the other on one machine. -/
def executeAll (machine : Machine) : List (List Command) → List (Except Error Float)
  | [] => []
  | program :: programs =>
    let (result, machine) := machine.execute program
    result :: machine.executeAll programs

end Machine

end Derivatives
