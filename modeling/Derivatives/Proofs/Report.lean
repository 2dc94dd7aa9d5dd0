import Derivatives.Proofs.Formula
import Derivatives.Proofs.StackCode
import Derivatives.Report

/-!
# Reports on formulas

A report on a formula asks of the formula, and of its derivative in the same graph, what is
said (`Formula.report`). That is the report on the expression which the formula stands for
(`Formula.report_eq`), and the code in it computes the value of the derivative at the point in
question (`Formula.execute_commands_report`).
-/

namespace Derivatives.Formula

variable {f : Formula}

/-- The report on a formula. -/
def report (options : Options) (f : Formula) : Report :=
  let d := f.derivative
  { expression := f.render
    derivative := d.render
    commands := d.commands options.point
    expressionCommands :=
      if options.listExpression then some (f.commands options.point) else none
    value := if options.evaluate then some (d.eval options.point) else none }

/-- The report on a formula is that on its expression. -/
theorem report_eq (hf : f.WellFormed) (options : Options) :
    f.report options = .ofExpr options f.toExpr := by
  rw [report, Report.ofExpr]
  simp only [commands_eq, render, eval, toExpr_derivative hf]

/-- The code in a report computes the value of the derivative. -/
theorem execute_commands_report (f : Formula) (options : Options) (machine : Machine) :
    (machine.execute (f.report options).commands).1 = .ok (f.derivative.eval options.point) := by
  rw [report, execute_commands]

/-- The code of a formula is in the report if it is asked for. -/
theorem mem_expressionCommands_report (f : Formula) {options : Options} {commands : List Command} :
    commands ∈ (f.report options).expressionCommands ↔
      options.listExpression ∧ f.commands options.point = commands := by
  rw [report]
  split <;> simp [*]

end Derivatives.Formula
