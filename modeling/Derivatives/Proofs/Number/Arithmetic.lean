import Derivatives.Operator
import Derivatives.Proofs.Number.Encoding

/-!
# Operations on what is no number, and on zero

An operation one operand of which is no number gives no number (`Operator.isNaN_apply_left`,
`Operator.isNaN_apply_right`, `Number.isNaN_neg`). The doubles that equal zero are zero and its
negative (`Number.beq_zero_iff`), and the square of each does so again
(`Number.beq_zero_mul_self`). A quotient by either is no number
(`Operator.isNaN_apply_div`).

All of them are read off from how an operation treats the kinds of doubles there are: it takes
its operands apart, and puts the result together.
-/

namespace Derivatives

open Float.Model

namespace Number

variable {x y : Float}

/-! ## What is no number -/

theorem isNaN_iff : x.isNaN ↔ x.toModel.unpack = .notANumber := by
  change x.toModel.unpack.isNaN ↔ _
  cases x.toModel.unpack with
  | notANumber => exact iff_of_true rfl rfl
  | zero | infinity | finite => exact iff_of_false Bool.false_ne_true UnpackedFloat.noConfusion

/-- What is a number equals itself. -/
theorem beq_self (h : ¬ x.isNaN) : x == x := by
  rw [isNaN_iff] at h
  change (x.toModel.unpack.compare x.toModel.unpack == some .eq) = true
  generalize x.toModel.unpack = u at h
  cases u with
  | notANumber => exact absurd rfl h
  | zero => rfl
  | infinity s => cases s <;> rfl
  | finite s m e hm =>
    have hself : (compare e e).then (compare m m) = .eq := by
      rw [Std.compare_self, Std.compare_self]
      rfl
    cases s with
    | positive => exact beq_iff_eq.2 (congrArg some hself)
    | negative => exact beq_iff_eq.2 (congrArg (fun o : Ordering => some o.swap) hself)

theorem not_isNaN_of_isUnsigned (h : IsUnsigned x) : ¬ x.isNaN := by
  have hfinite : x.toModel.unpack.isFinite := isFinite_iff.2 h.finite
  rw [isNaN_iff]
  intro hnan
  rw [hnan] at hfinite
  cases hfinite

theorem isNaN_pack : Float.isNaN ⟨pack .notANumber⟩ := by decide

theorem isNaN_nan : nan.isNaN := by decide

theorem isNaN_neg (h : x.isNaN) : (-x).isNaN := by
  change Float.isNaN ⟨pack x.toModel.unpack.neg⟩
  rw [isNaN_iff.1 h]
  exact isNaN_pack

/-! ## Zero -/

theorem beq_pack_zero (s : UnpackedFloat.Sign) : (⟨pack (.zero s)⟩ : Float) == 0.0 := by
  cases s <;> decide

theorem exists_unpack_eq_zero (h : x == 0.0) : ∃ s, x.toModel.unpack = .zero s := by
  change (x.toModel.unpack.compare (.zero .positive) == some .eq) = true at h
  generalize x.toModel.unpack = u at h
  cases u with
  | zero s => exact ⟨s, rfl⟩
  | notANumber => cases h
  | infinity s => cases s <;> cases h
  | finite s m e hm => cases s <;> cases h

/-- Zero and its negative are the doubles that equal zero. -/
theorem beq_zero_iff : x == 0.0 ↔ x = 0.0 ∨ x = -0.0 := by
  refine ⟨fun h => ?_, ?_⟩
  · obtain ⟨s, hs⟩ := exists_unpack_eq_zero h
    have hfinite : x.isFinite := by
      change x.toModel.unpack.isFinite
      rw [hs]
      rfl
    have hx : ⟨pack x.toModel.unpack⟩ = x := ofBits_toBits (isFinite_iff.1 hfinite)
    rw [hs] at hx
    cases s with
    | positive => exact .inl hx.symm
    | negative => exact .inr hx.symm
  · rintro (rfl | rfl) <;> decide

theorem beq_zero_mul_self (h : x == 0.0) : x * x == 0.0 := by
  obtain ⟨s, hs⟩ := exists_unpack_eq_zero h
  change (⟨pack (.mul .binary64 x.toModel.unpack x.toModel.unpack)⟩ : Float) == 0.0
  rw [hs]
  exact beq_pack_zero (s * s)

end Number

namespace Operator

open Number

variable {x y : Float}

/-- The result of an operator for doubles taken apart. -/
def applyUnpacked : Operator → UnpackedFloat → UnpackedFloat → UnpackedFloat
  | add => .add .binary64
  | sub => .sub .binary64
  | mul => .mul .binary64
  | div => .div .binary64

/-- An operator takes its operands apart, unless it divides by zero. -/
theorem apply_eq (op : Operator) (x y : Float) :
    op.apply x y = if op = div ∧ y == 0.0 then nan
      else ⟨pack (op.applyUnpacked x.toModel.unpack y.toModel.unpack)⟩ := by
  cases op with
  | add | sub | mul => rfl
  | div =>
    simp only [apply, true_and]
    rfl

/-- A quotient by zero is no number. -/
theorem isNaN_apply_div (x : Float) (hy : y == 0.0) : (div.apply x y).isNaN := by
  rw [apply_eq, if_pos ⟨rfl, hy⟩]
  exact isNaN_nan

theorem isNaN_apply_left (op : Operator) (hx : x.isNaN) (y : Float) : (op.apply x y).isNaN := by
  rw [apply_eq, isNaN_iff.1 hx]
  split
  · exact isNaN_nan
  · cases op <;> exact isNaN_pack

theorem isNaN_apply_right (op : Operator) (x : Float) (hy : y.isNaN) : (op.apply x y).isNaN := by
  rw [apply_eq, isNaN_iff.1 hy]
  split
  · exact isNaN_nan
  · cases op <;> cases x.toModel.unpack <;> exact isNaN_pack

end Operator

end Derivatives
