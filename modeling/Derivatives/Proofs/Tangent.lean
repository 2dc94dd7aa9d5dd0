import Mathlib.Analysis.Asymptotics.Lemmas
import Mathlib.Analysis.Normed.Field.Lemmas
import Mathlib.Analysis.Normed.Ring.Lemmas
import Mathlib.Tactic.LinearCombination

/-!
# Tangents

A function of a rational argument has, at zero, the tangent of value `v` and slope
`d` if it departs from the line by no more than a multiple of the square of the
argument (`IsTangent`). This is more than to have the derivative `d`, and it is
exact arithmetic: the multiple and the neighbourhood in which it does are rational
numbers (`IsTangent.exists_bound`).

Tangents of sums, differences, products and quotients are those of the rules of
differentiation.
-/

namespace Derivatives

open Asymptotics Filter Topology

/-- Near zero, `w` departs from the line of value `v` and slope `d` by a multiple
    of the square of the argument, at most. -/
def IsTangent (w : ℚ → ℚ) (v d : ℚ) : Prop :=
  (fun h => w h - v - h * d) =O[𝓝 0] fun h => h ^ 2

namespace IsTangent

variable {w w₁ w₂ : ℚ → ℚ} {v d v₁ d₁ v₂ d₂ : ℚ}

theorem const (c : ℚ) : IsTangent (fun _ => c) c 0 := by
  simpa [IsTangent] using isBigO_zero _ _

theorem id_add (x : ℚ) : IsTangent (fun h => x + h) x 1 := by
  simpa [IsTangent] using isBigO_zero _ _

theorem neg (hw : IsTangent w v d) : IsTangent (fun h => -w h) (-v) (-d) :=
  (IsBigO.neg_left hw).congr_left fun h => by ring

theorem add (h₁ : IsTangent w₁ v₁ d₁) (h₂ : IsTangent w₂ v₂ d₂) :
    IsTangent (fun h => w₁ h + w₂ h) (v₁ + v₂) (d₁ + d₂) :=
  (IsBigO.add h₁ h₂).congr_left fun h => by ring

theorem sub (h₁ : IsTangent w₁ v₁ d₁) (h₂ : IsTangent w₂ v₂ d₂) :
    IsTangent (fun h => w₁ h - w₂ h) (v₁ - v₂) (d₁ - d₂) :=
  (IsBigO.sub h₁ h₂).congr_left fun h => by ring

/-- A bounded argument. -/
theorem isBigO_one : (fun h : ℚ => h) =O[𝓝 0] fun _ => (1 : ℚ) :=
  tendsto_id.isBigO_one ℚ

/-- The distance to the value is of the order of the argument. -/
theorem sub_isBigO (hw : IsTangent w v d) : (fun h => w h - v) =O[𝓝 0] fun h => h := by
  have hsquare : (fun h : ℚ => h ^ 2) =O[𝓝 0] fun h => h :=
    ((isBigO_refl (fun h : ℚ => h) _).mul isBigO_one).congr (fun h => by ring) fun h => by ring
  have hline : (fun h : ℚ => h * d) =O[𝓝 0] fun h => h :=
    (isBigO_const_mul_self d _ _).congr_left fun h => by ring
  exact ((IsBigO.trans hw hsquare).add hline).congr_left fun h => by ring

theorem tendsto (hw : IsTangent w v d) : Tendsto w (𝓝 0) (𝓝 v) := by
  have h := (hw.sub_isBigO.trans_tendsto tendsto_id).add_const v
  simpa using h

/-- The product of an argument and a distance to a value is of second order. -/
theorem mul_sub_isBigO (hw : IsTangent w v d) (c : ℚ) :
    (fun h => h * c * (w h - v)) =O[𝓝 0] fun h => h ^ 2 :=
  (((isBigO_refl (fun h : ℚ => h) _).mul hw.sub_isBigO).const_mul_left c).congr
    (fun h => by ring) fun h => by ring

theorem mul (h₁ : IsTangent w₁ v₁ d₁) (h₂ : IsTangent w₂ v₂ d₂) :
    IsTangent (fun h => w₁ h * w₂ h) (v₁ * v₂) (v₁ * d₂ + v₂ * d₁) := by
  have hleft : (fun h => (w₁ h - v₁ - h * d₁) * w₂ h) =O[𝓝 0] fun h => h ^ 2 :=
    (IsBigO.mul h₁ (h₂.tendsto.isBigO_one ℚ)).congr_right fun h => by ring
  have hright : (fun h => v₁ * (w₂ h - v₂ - h * d₂)) =O[𝓝 0] fun h => h ^ 2 :=
    IsBigO.const_mul_left h₂ v₁
  exact ((hleft.add hright).add (h₂.mul_sub_isBigO d₁)).congr_left fun h => by ring

theorem div (h₁ : IsTangent w₁ v₁ d₁) (h₂ : IsTangent w₂ v₂ d₂) (hv₂ : v₂ ≠ 0) :
    IsTangent (fun h => w₁ h / w₂ h) (v₁ / v₂) ((v₂ * d₁ - v₁ * d₂) / (v₂ * v₂)) := by
  -- With `q` and `q'` for the value and the slope of the quotient, multiplying
  -- the departure by the divisor leaves those of dividend and divisor.
  let q := v₁ / v₂
  let q' := (v₂ * d₁ - v₁ * d₂) / (v₂ * v₂)
  have hq : v₁ = q * v₂ := by simp only [q]; field_simp
  have hq' : d₁ = q * d₂ + q' * v₂ := by simp only [q, q']; field_simp; ring
  have hnumerator : (fun h => (w₁ h - v₁ - h * d₁) - q * (w₂ h - v₂ - h * d₂) -
      h * q' * (w₂ h - v₂)) =O[𝓝 0] fun h => h ^ 2 :=
    (IsBigO.sub h₁ (IsBigO.const_mul_left h₂ q)).sub (h₂.mul_sub_isBigO q')
  have hinv : (fun h => (w₂ h)⁻¹) =O[𝓝 0] fun _ => (1 : ℚ) :=
    (h₂.tendsto.inv₀ hv₂).isBigO_one ℚ
  have hne : ∀ᶠ h in 𝓝 0, w₂ h ≠ 0 := h₂.tendsto.eventually_ne hv₂
  refine (hnumerator.mul hinv).congr' ?_ (.of_forall fun h => by ring)
  filter_upwards [hne] with h hh
  change _ = w₁ h / w₂ h - q - h * q'
  rw [← div_eq_mul_inv, div_eq_iff hh, sub_mul, sub_mul, div_mul_cancel₀ _ hh]
  linear_combination -hq - h * hq'

/-- The departure from a tangent, and what holds near zero, in rational numbers. -/
theorem exists_bound (hw : IsTangent w v d) {p : ℚ → Prop} (hp : ∀ᶠ h in 𝓝 0, p h) :
    ∃ C δ : ℚ, 0 < δ ∧ ∀ h, |h| ≤ δ → p h ∧ |w h - v - h * d| ≤ C * h ^ 2 := by
  obtain ⟨c, hc⟩ := hw.bound
  obtain ⟨C, hC⟩ := exists_rat_gt c
  obtain ⟨ε, hε, hball⟩ := Metric.eventually_nhds_iff.1 (hp.and hc)
  obtain ⟨δ, hδ, hδε⟩ := exists_rat_btwn hε
  refine ⟨C, δ, by exact_mod_cast hδ, fun h hh => ?_⟩
  have hdist : dist h 0 < ε := by
    rw [Rat.dist_eq, Rat.cast_zero, sub_zero]
    exact lt_of_le_of_lt (by exact_mod_cast hh) hδε
  obtain ⟨hph, hbound⟩ := hball hdist
  refine ⟨hph, ?_⟩
  rw [← Rat.norm_cast_real, ← Rat.norm_cast_real, Real.norm_eq_abs, Real.norm_eq_abs,
    abs_of_nonneg (a := ((h ^ 2 : ℚ) : ℝ)) (by exact_mod_cast sq_nonneg h)] at hbound
  have hle : (|w h - v - h * d| : ℚ) ≤ (C : ℝ) * (h ^ 2 : ℚ) := by
    rw [Rat.cast_abs]
    exact hbound.trans (mul_le_mul_of_nonneg_right hC.le (by exact_mod_cast sq_nonneg h))
  exact_mod_cast hle

end IsTangent

end Derivatives
