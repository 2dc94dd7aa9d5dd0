import Derivatives.Proofs.Formula
import Derivatives.Proofs.Tangent

/-!
# Derivatives in exact arithmetic

The *exact value* of an expression is its value in the rational numbers
(`Expr.exactValue`), given one for each of its numbers; there is none if some
divisor in it is zero (`Expr.exactValue_eq_none_iff`). The derivative of an
expression has an exact value where the expression has one, and this is the slope
of its tangent (`Expr.exists_exactValue_derivative`): what departs from the tangent
is of second order.
-/

namespace Derivatives

open Filter Topology

/-- The rational number that a finite double is. -/
def Number.toRat (x : Float) : ℚ :=
  (if isNegative x then -1 else 1) * (units (magnitude x) / 2 ^ unitScale)

theorem Number.toRat_zero : toRat 0.0 = 0 := by
  have h : magnitude 0.0 = 0 := by decide
  rw [toRat, h]
  simp [units, binade]

theorem Number.toRat_one : toRat 1.0 = 1 := by
  have hsign : isNegative 1.0 = false := by decide
  have h : magnitude 1.0 = 1023 * binade := by decide
  have hmantissa : binade + 1023 * binade % binade = 2 ^ 52 := by decide
  have hscale : unitScale = 52 + (1023 * binade / binade - 1) := by decide
  have hunits : units (1023 * binade) = 2 ^ unitScale := by
    rw [units, if_neg (by decide), hmantissa, Nat.shiftLeft_eq, ← pow_add, ← hscale]
  rw [toRat, hsign, h, hunits, Nat.cast_pow, Nat.cast_ofNat, div_self (by positivity)]
  simp

/-- The result of an operator in exact arithmetic; there is no quotient by zero. -/
def Operator.exact (op : Operator) (u v : ℚ) : Option ℚ :=
  match op with
  | add => some (u + v)
  | sub => some (u - v)
  | mul => some (u * v)
  | div => if v = 0 then none else some (u / v)

theorem Operator.exact_div_eq_some_iff {u v w : ℚ} :
    Operator.div.exact u v = some w ↔ v ≠ 0 ∧ u / v = w := by
  rw [exact]
  split_ifs with h <;> simp [h]

theorem Operator.exact_eq_none_iff {op : Operator} {u v : ℚ} :
    op.exact u v = none ↔ op = div ∧ v = 0 := by
  cases op <;> simp [exact]

namespace Expr

variable {ρ : Float → ℚ} {x : ℚ} {e : Expr}

/-- The value of an expression at `x` in exact arithmetic, if no divisor is zero;
    `ρ` gives the values of its numbers. -/
def exactValue (ρ : Float → ℚ) (x : ℚ) : Expr → Option ℚ
  | constant value => some (ρ value)
  | var => some x
  | binary op left right =>
    (left.exactValue ρ x).bind fun u => (right.exactValue ρ x).bind fun v => op.exact u v
  | negate operand => (operand.exactValue ρ x).map fun v => -v

/-- An expression occurs as a divisor in another. -/
inductive HasDivisor (divisor : Expr) : Expr → Prop
  | here {a : Expr} : HasDivisor divisor (binary .div a divisor)
  | left {op : Operator} {a b : Expr} : HasDivisor divisor a → HasDivisor divisor (binary op a b)
  | right {op : Operator} {a b : Expr} : HasDivisor divisor b → HasDivisor divisor (binary op a b)
  | negate {a : Expr} : HasDivisor divisor a → HasDivisor divisor (negate a)

theorem exactValue_binary {op : Operator} {a b : Expr} {u v : ℚ}
    (hu : a.exactValue ρ x = some u) (hv : b.exactValue ρ x = some v) :
    (binary op a b).exactValue ρ x = op.exact u v := by
  rw [exactValue, hu, hv]
  rfl

theorem exactValue_binary_eq_some {op : Operator} {a b : Expr} {w : ℚ}
    (h : (binary op a b).exactValue ρ x = some w) :
    ∃ u v, a.exactValue ρ x = some u ∧ b.exactValue ρ x = some v ∧ op.exact u v = some w := by
  obtain ⟨u, hu, h⟩ := Option.bind_eq_some_iff.1 h
  obtain ⟨v, hv, h⟩ := Option.bind_eq_some_iff.1 h
  exact ⟨u, v, hu, hv, h⟩

/-- Where an expression has an exact value, so has its derivative, which is the
    slope of its tangent there. -/
theorem exists_exactValue_derivative (h0 : ρ 0.0 = 0) (h1 : ρ 1.0 = 1) {y : ℚ}
    (hy : e.exactValue ρ x = some y) :
    ∃ d w, e.derivative.exactValue ρ x = some d ∧ IsTangent w y d ∧
      ∀ᶠ h in 𝓝 0, e.exactValue ρ (x + h) = some (w h) := by
  induction e generalizing y with
  | constant value =>
    obtain rfl := Option.some.inj hy
    exact ⟨0, fun _ => ρ value, congrArg some h0, .const _, .of_forall fun _ => rfl⟩
  | var =>
    obtain rfl := Option.some.inj hy
    exact ⟨1, fun h => x + h, congrArg some h1, .id_add x, .of_forall fun _ => rfl⟩
  | negate operand ih =>
    obtain ⟨v, hv, rfl⟩ := Option.map_eq_some_iff.1 hy
    obtain ⟨d, w, hd, hw, hnear⟩ := ih hv
    refine ⟨-d, fun h => -w h, ?_, hw.neg, ?_⟩
    · rw [derivative, exactValue, hd, Option.map_some]
    · filter_upwards [hnear] with h hh
      rw [exactValue, hh, Option.map_some]
  | binary op left right ihl ihr =>
    obtain ⟨u, v, hu, hv, hop⟩ := exactValue_binary_eq_some hy
    obtain ⟨du, wu, hdu, hwu, hnearu⟩ := ihl hu
    obtain ⟨dv, wv, hdv, hwv, hnearv⟩ := ihr hv
    -- Near `x`, both operands have the values that their tangents are about.
    have hnear : ∀ᶠ h in 𝓝 0,
        (binary op left right).exactValue ρ (x + h) = op.exact (wu h) (wv h) := by
      filter_upwards [hnearu, hnearv] with h hh hh' using exactValue_binary hh hh'
    cases op with
    | add =>
      obtain rfl := Option.some.inj hop
      exact ⟨du + dv, fun h => wu h + wv h, exactValue_binary hdu hdv, hwu.add hwv, hnear⟩
    | sub =>
      obtain rfl := Option.some.inj hop
      exact ⟨du - dv, fun h => wu h - wv h, exactValue_binary hdu hdv, hwu.sub hwv, hnear⟩
    | mul =>
      obtain rfl := Option.some.inj hop
      exact ⟨u * dv + v * du, fun h => wu h * wv h,
        exactValue_binary (exactValue_binary hu hdv) (exactValue_binary hv hdu),
        hwu.mul hwv, hnear⟩
    | div =>
      obtain ⟨hne, rfl⟩ := Operator.exact_div_eq_some_iff.1 hop
      refine ⟨(v * du - u * dv) / (v * v), fun h => wu h / wv h, ?_, hwu.div hwv hne, ?_⟩
      · have hnumerator : (binary .sub (binary .mul right left.derivative)
            (binary .mul left right.derivative)).exactValue ρ x = some (v * du - u * dv) :=
          exactValue_binary (exactValue_binary hv hdu) (exactValue_binary hu hdv)
        have hdenominator : (binary .mul right right).exactValue ρ x = some (v * v) :=
          exactValue_binary hv hv
        exact (exactValue_binary hnumerator hdenominator).trans
          (Operator.exact_div_eq_some_iff.2 ⟨mul_ne_zero hne hne, rfl⟩)
      · -- Near `x`, the divisor is near its value, and so is not zero.
        filter_upwards [hnear, hwv.tendsto.eventually_ne hne] with h hh hne'
        exact hh.trans (Operator.exact_div_eq_some_iff.2 ⟨hne', rfl⟩)

/-- Where the derivative of an expression has an exact value, so has the expression. -/
theorem exists_exactValue_of_derivative {d : ℚ} (hd : e.derivative.exactValue ρ x = some d) :
    ∃ y, e.exactValue ρ x = some y := by
  induction e generalizing d with
  | constant value => exact ⟨_, rfl⟩
  | var => exact ⟨_, rfl⟩
  | negate operand ih =>
    obtain ⟨d, hd, -⟩ := Option.map_eq_some_iff.1 hd
    obtain ⟨v, hv⟩ := ih hd
    exact ⟨-v, by rw [exactValue, hv, Option.map_some]⟩
  | binary op left right ihl ihr =>
    cases op with
    | add =>
      obtain ⟨du, dv, hdu, hdv, -⟩ := exactValue_binary_eq_some hd
      obtain ⟨u, hu⟩ := ihl hdu
      obtain ⟨v, hv⟩ := ihr hdv
      exact ⟨u + v, exactValue_binary hu hv⟩
    | sub =>
      obtain ⟨du, dv, hdu, hdv, -⟩ := exactValue_binary_eq_some hd
      obtain ⟨u, hu⟩ := ihl hdu
      obtain ⟨v, hv⟩ := ihr hdv
      exact ⟨u - v, exactValue_binary hu hv⟩
    | mul =>
      obtain ⟨_, _, hudv, hvdu, -⟩ := exactValue_binary_eq_some hd
      obtain ⟨u, _, hu, -⟩ := exactValue_binary_eq_some hudv
      obtain ⟨v, _, hv, -⟩ := exactValue_binary_eq_some hvdu
      exact ⟨u * v, exactValue_binary hu hv⟩
    | div =>
      -- The square of the divisor is not zero, and neither is the divisor.
      obtain ⟨_, s, hnumerator, hdenominator, hquotient⟩ := exactValue_binary_eq_some hd
      obtain ⟨_, _, -, hudv, -⟩ := exactValue_binary_eq_some hnumerator
      obtain ⟨u, _, hu, -⟩ := exactValue_binary_eq_some hudv
      obtain ⟨v, v', hv, hv', hs⟩ := exactValue_binary_eq_some hdenominator
      obtain ⟨hne, -⟩ := Operator.exact_div_eq_some_iff.1 hquotient
      obtain rfl := Option.some.inj (hv.symm.trans hv')
      obtain rfl := Option.some.inj hs
      exact ⟨u / v, (exactValue_binary hu hv).trans
        (Operator.exact_div_eq_some_iff.2 ⟨left_ne_zero_of_mul hne, rfl⟩)⟩

/-- An expression has no exact value just if some divisor in it is zero. -/
theorem exactValue_eq_none_iff :
    e.exactValue ρ x = none ↔
      ∃ divisor, HasDivisor divisor e ∧ divisor.exactValue ρ x = some 0 := by
  constructor
  · intro h
    induction e with
    | constant value => cases h
    | var => cases h
    | negate operand ih =>
      obtain ⟨divisor, hd, hzero⟩ := ih (Option.map_eq_none_iff.1 h)
      exact ⟨divisor, .negate hd, hzero⟩
    | binary op left right ihl ihr =>
      cases hu : left.exactValue ρ x with
      | none =>
        obtain ⟨divisor, hd, hzero⟩ := ihl hu
        exact ⟨divisor, .left hd, hzero⟩
      | some u =>
        cases hv : right.exactValue ρ x with
        | none =>
          obtain ⟨divisor, hd, hzero⟩ := ihr hv
          exact ⟨divisor, .right hd, hzero⟩
        | some v =>
          -- Only a quotient by zero has no result on results.
          obtain ⟨rfl, rfl⟩ := Operator.exact_eq_none_iff.1 ((exactValue_binary hu hv).symm.trans h)
          exact ⟨right, .here, hv⟩
  · rintro ⟨divisor, hd, hzero⟩
    induction hd with
    | @here a =>
      cases hu : a.exactValue ρ x with
      | none => rw [exactValue, hu, Option.bind_none]
      | some u =>
        exact (exactValue_binary hu hzero).trans (Operator.exact_eq_none_iff.2 ⟨rfl, rfl⟩)
    | left _ ih => rw [exactValue, ih, Option.bind_none]
    | @right op a b _ ih => cases hu : a.exactValue ρ x <;> rw [exactValue, hu, ih] <;> rfl
    | negate _ ih => rw [exactValue, ih, Option.map_none]

end Expr

namespace Formula

variable {ρ : Float → ℚ}

/-- In exact arithmetic, the derivative of a formula, and of each of its iterated
    derivatives, is defined where the formula is, and is the slope of its tangent. -/
theorem exactValue_derivative (h0 : ρ 0.0 = 0) (h1 : ρ 1.0 = 1) {g : Graph} {root : Nat}
    (hg : g.WellFormed) (hlt : root < g.size) (n : Nat) (x : ℚ) :
    let f := derivative^[n] ⟨g, root⟩
    let value := fun y => (f.graph.unfold f.root).exactValue ρ y
    let grown := f.graph.derive f.root
    let slope := (grown.1.unfold grown.2).exactValue ρ x
    (value x = none ↔ ∃ divisor, Expr.HasDivisor divisor (f.graph.unfold f.root) ∧
      divisor.exactValue ρ x = some 0) ∧
    (slope.isSome ↔ (value x).isSome) ∧
    ∀ y d, value x = some y → slope = some d → ∃ C δ : ℚ, 0 < δ ∧ ∀ h, |h| ≤ δ →
      ∃ w, value (x + h) = some w ∧ |w - y - h * d| ≤ C * h ^ 2 := by
  intro f value grown slope
  have hf : f.WellFormed := iterate_derivative_wellFormed ⟨hg, hlt⟩ n
  have hslope : slope = f.toExpr.derivative.exactValue ρ x :=
    congrArg (Expr.exactValue ρ x) (toExpr_derivative hf)
  refine ⟨Expr.exactValue_eq_none_iff, ?_, fun y d hy hd => ?_⟩
  · rw [hslope, Option.isSome_iff_exists, Option.isSome_iff_exists]
    constructor
    · rintro ⟨d, hd⟩
      exact Expr.exists_exactValue_of_derivative hd
    · rintro ⟨y, hy⟩
      obtain ⟨d, -, hd, -⟩ := Expr.exists_exactValue_derivative h0 h1 hy
      exact ⟨d, hd⟩
  · obtain ⟨d', w, hd', hw, hnear⟩ := Expr.exists_exactValue_derivative h0 h1 hy
    obtain rfl : d = d' := Option.some.inj (hd.symm.trans (hslope.trans hd'))
    obtain ⟨C, δ, hδ, hbound⟩ := hw.exists_bound hnear
    exact ⟨C, δ, hδ, fun h hh => ⟨w h, hbound h hh⟩⟩

/-- The second derivative of a quotient, numbers having the values of doubles. -/
theorem exactValue_derivative_quotient :
    let g : Graph := ⟨#[.var, .binary .mul 0 0, .constant 1.0, .binary .div 2 1]⟩
    let f := derivative ⟨g, 3⟩
    let slope := (f.derivative.toExpr).exactValue Number.toRat 3
    Number.toRat 0.0 = 0 ∧ Number.toRat 1.0 = 1 ∧ g.WellFormed ∧ 3 < g.size ∧
      (slope.isSome ↔ (f.toExpr.exactValue Number.toRat 3).isSome) ∧
      ∀ y d, f.toExpr.exactValue Number.toRat 3 = some y → slope = some d →
        ∃ C δ : ℚ, 0 < δ ∧ ∀ h, |h| ≤ δ →
          ∃ w, f.toExpr.exactValue Number.toRat (3 + h) = some w ∧
            |w - y - h * d| ≤ C * h ^ 2 := by
  intro g f slope
  have hg : g.WellFormed := by decide
  have hlt : 3 < g.size := by decide
  obtain ⟨-, hdefined, hbound⟩ :=
    exactValue_derivative Number.toRat_zero Number.toRat_one hg hlt 1 3
  exact ⟨Number.toRat_zero, Number.toRat_one, hg, hlt, hdefined, hbound⟩

end Formula

end Derivatives
