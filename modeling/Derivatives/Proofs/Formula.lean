import Derivatives.Formula
import Derivatives.Proofs.Graph.Derivative
import Mathlib.Logic.Function.Iterate

/-!
# Formulas and the expressions they stand for

A formula is *well-formed* if its graph is and holds its root. Then its derivative
is well-formed, too, and stands for the derivative of its expression
(`toExpr_derivative`), and so on for any number of derivatives
(`toExpr_iterate_derivative`). The formula of an expression is well-formed and
stands for it (`toExpr_ofExpr`).
-/

namespace Derivatives.Formula

/-- The root of a formula is a place in a well-formed graph. -/
structure WellFormed (f : Formula) : Prop where
  /-- The graph is well-formed. -/
  graph : f.graph.WellFormed
  /-- The root is a place in it. -/
  root : f.root < f.graph.size

variable {f : Formula}

theorem commands_eq (f : Formula) (x : Float) : f.commands x = f.toExpr.commands x :=
  List.append_nil _

theorem derivative_wellFormed (hf : f.WellFormed) : f.derivative.WellFormed := by
  obtain ⟨hd, -⟩ := Graph.derive_grown_isDerivative hf.graph hf.root
  exact ⟨hd.wellFormed, hd.lt_size⟩

theorem toExpr_derivative (hf : f.WellFormed) : f.derivative.toExpr = f.toExpr.derivative := by
  obtain ⟨hd, hroot⟩ := Graph.derive_grown_isDerivative hf.graph hf.root
  exact (hroot.unfold_eq hd.wellFormed).trans
    (congrArg Expr.derivative (hd.extension.unfold_eq hf.root))

theorem iterate_derivative_wellFormed (hf : f.WellFormed) (n : Nat) :
    (derivative^[n] f).WellFormed := by
  induction n with
  | zero => exact hf
  | succ n ih => rw [Function.iterate_succ_apply']; exact derivative_wellFormed ih

theorem toExpr_iterate_derivative (hf : f.WellFormed) (n : Nat) :
    (derivative^[n] f).toExpr = Expr.derivative^[n] f.toExpr := by
  induction n with
  | zero => rfl
  | succ n ih =>
    rw [Function.iterate_succ_apply', Function.iterate_succ_apply',
      toExpr_derivative (iterate_derivative_wellFormed hf n), ih]

theorem ofExpr_wellFormed (e : Expr) : (ofExpr e).WellFormed :=
  have h := Graph.addExpr_grown Graph.wellFormed_empty e
  ⟨h.wellFormed, h.lt_size⟩

theorem toExpr_ofExpr (e : Expr) : (ofExpr e).toExpr = e :=
  Graph.unfold_addExpr Graph.wellFormed_empty e

theorem parse_of_parse {line : String} {e : Expr} (h : Expr.parse line = .ok e) :
    parse line = .ok (ofExpr e) := by
  rw [parse, h]
  rfl

/-- A formula on a line is that of the expression on it. -/
theorem exists_of_parse {line : String} (h : parse line = .ok f) :
    ∃ e, Expr.parse line = .ok e ∧ ofExpr e = f := by
  rw [parse] at h
  cases he : Expr.parse line with
  | error err =>
    rw [he] at h
    cases h
  | ok e =>
    rw [he] at h
    exact ⟨e, rfl, Except.ok.inj h⟩

theorem wellFormed_of_parse {line : String} (h : parse line = .ok f) : f.WellFormed := by
  obtain ⟨e, -, rfl⟩ := exists_of_parse h
  exact ofExpr_wellFormed e

end Derivatives.Formula
