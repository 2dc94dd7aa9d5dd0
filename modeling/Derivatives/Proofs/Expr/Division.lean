import Derivatives.Expr.Derivative
import Derivatives.Proofs.Number.Arithmetic
import Derivatives.Proofs.Report

/-!
# Divisions by zero

An expression *divides by zero* at a value of the variable if a division occurs in it the divisor
of which is zero there (`Expr.DividesByZero`). Its value is no number then, as a part that is none
makes the whole none (`Expr.isNaN_eval_of_occurs`).

Deriving never loses such a division: either the operand it occurs in is kept, as a factor, or
the derivative of that operand is; and a quotient by zero becomes one by the square of zero
(`Expr.DividesByZero.derivative`). So the value of a formula that divides by zero is no number,
and neither is that of any of its derivatives (`Formula.eval_iterate_derivative_isNaN`).
-/

namespace Derivatives

namespace Expr

/-- An expression is a part of another one, or is that one. -/
inductive Occurs (part : Expr) : Expr → Prop
  | here : Occurs part part
  | left {op : Operator} {a b : Expr} : Occurs part a → Occurs part (.binary op a b)
  | right {op : Operator} {a b : Expr} : Occurs part b → Occurs part (.binary op a b)
  | operand {a : Expr} : Occurs part a → Occurs part (.negate a)

/-- A division by what is zero at `x`, or its negative, is a part of the expression. -/
def DividesByZero (x : Float) (e : Expr) : Prop :=
  ∃ a b, Occurs (.binary .div a b) e ∧ b.eval x == 0.0

variable {x : Float} {part a e : Expr}

/-! ## Values -/

/-- The value of an expression is no number if that of a part of it is none. -/
theorem isNaN_eval_of_occurs (h : Occurs part e) (hpart : (part.eval x).isNaN) :
    (e.eval x).isNaN := by
  induction h with
  | here => exact hpart
  | @left op a b _ ih => exact op.isNaN_apply_left ih (b.eval x)
  | @right op a b _ ih => exact op.isNaN_apply_right (a.eval x) ih
  | operand _ ih => exact Number.isNaN_neg ih

theorem DividesByZero.isNaN_eval (h : e.DividesByZero x) : (e.eval x).isNaN := by
  obtain ⟨a, b, hoccurs, hzero⟩ := h
  exact isNaN_eval_of_occurs hoccurs (Operator.isNaN_apply_div (a.eval x) hzero)

/-! ## Derivatives -/

theorem Occurs.trans (h : Occurs part a) (ha : Occurs a e) : Occurs part e := by
  induction ha with
  | here => exact h
  | left _ ih => exact .left ih
  | right _ ih => exact .right ih
  | operand _ ih => exact .operand ih

/-- An expression divides by zero if a part of it does. -/
theorem DividesByZero.of_occurs (h : a.DividesByZero x) (ha : Occurs a e) : e.DividesByZero x := by
  obtain ⟨c, d, hoccurs, hzero⟩ := h
  exact ⟨c, d, hoccurs.trans ha, hzero⟩

/-- The derivative of an expression that divides by zero does so, too. -/
theorem DividesByZero.derivative (h : e.DividesByZero x) : e.derivative.DividesByZero x := by
  obtain ⟨c, d, hoccurs, hzero⟩ := h
  induction hoccurs with
  | here =>
    -- The divisor becomes its square.
    exact ⟨_, _, .here, Number.beq_zero_mul_self hzero⟩
  | @left op a b ha ih =>
    have hfactor : a.DividesByZero x := ⟨c, d, ha, hzero⟩
    cases op with
    | add | sub => exact ih.of_occurs (.left .here)
    | mul => exact hfactor.of_occurs (.left (.left .here))
    | div => exact hfactor.of_occurs (.left (.right (.left .here)))
  | @right op a b hb ih =>
    have hfactor : b.DividesByZero x := ⟨c, d, hb, hzero⟩
    cases op with
    | add | sub => exact ih.of_occurs (.right .here)
    | mul => exact hfactor.of_occurs (.right (.left .here))
    | div => exact hfactor.of_occurs (.right (.left .here))
  | operand _ ih => exact ih.of_occurs (.operand .here)

theorem DividesByZero.iterate_derivative (h : e.DividesByZero x) (n : Nat) :
    (Expr.derivative^[n] e).DividesByZero x := by
  induction n with
  | zero => exact h
  | succ n ih => rw [Function.iterate_succ_apply']; exact ih.derivative

end Expr

namespace Formula

variable {f : Formula} {x : Float}

/-- If a division by zero, or by its negative, occurs in the expression of a formula, the values
    of the formula and of all its derivatives are no numbers, and they are what their code
    computes. -/
theorem eval_iterate_derivative_isNaN (hf : f.WellFormed) {a b : Expr}
    (hdivision : Expr.Occurs (.binary .div a b) f.toExpr)
    (hdivisor : b.eval x = 0.0 ∨ b.eval x = -0.0) (n : Nat) :
    ((derivative^[n] f).eval x).isNaN ∧
      ∀ machine : Machine, (machine.execute ((derivative^[n] f).commands x)).1 =
        .ok ((derivative^[n] f).eval x) := by
  have hzero : f.toExpr.DividesByZero x := ⟨a, b, hdivision, Number.beq_zero_iff.2 hdivisor⟩
  refine ⟨?_, (derivative^[n] f).execute_commands x⟩
  rw [eval, toExpr_iterate_derivative hf]
  exact (hzero.iterate_derivative n).isNaN_eval

/-- In `x * (1 / (2 - x))`, the divisor is zero at 2. -/
theorem eval_iterate_derivative_isNaN_reciprocal :
    let f : Formula := ⟨⟨#[.var, .constant 1.0, .constant 2.0, .binary .sub 2 0,
      .binary .div 1 3, .binary .mul 0 4]⟩, 5⟩
    f.WellFormed ∧ Expr.Occurs (.binary .div (f.graph.unfold 1) (f.graph.unfold 3)) f.toExpr ∧
      (f.graph.unfold 3).eval 2.0 = 0.0 ∧ ∀ n, ((derivative^[n] f).eval 2.0).isNaN := by
  intro f
  have hf : f.WellFormed := ⟨by decide, by decide⟩
  have htree : f.toExpr = .binary .mul (f.graph.unfold 0)
      (.binary .div (f.graph.unfold 1) (f.graph.unfold 3)) := by decide +kernel
  have hoccurs : Expr.Occurs (.binary .div (f.graph.unfold 1) (f.graph.unfold 3)) f.toExpr := by
    rw [htree]
    exact .right .here
  have hzero : (f.graph.unfold 3).eval 2.0 = 0.0 := by decide +kernel
  exact ⟨hf, hoccurs, hzero, fun n => (eval_iterate_derivative_isNaN hf hoccurs (.inl hzero) n).1⟩

end Formula

end Derivatives
