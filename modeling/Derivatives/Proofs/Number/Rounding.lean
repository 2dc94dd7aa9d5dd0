import Derivatives.Proofs.Number.Display
import Mathlib.Algebra.Order.Field.Power
import Mathlib.Algebra.Order.Field.Rat
import Mathlib.Algebra.Ring.Parity
import Mathlib.Data.Nat.Cast.Order.Field
import Mathlib.Tactic.FieldSimp
import Mathlib.Tactic.Linarith
import Mathlib.Tactic.NormNum
import Mathlib.Tactic.Positivity
import Mathlib.Tactic.Ring

/-!
# Rounding to nearest

The magnitudes of doubles stand for numbers on a grid (`rational`), the steps of which double
from one binade to the next (`units_succ`). One is nearest to a number (`IsNearest`) if no other
is nearer, infinity being taken for the next power of two, and if it is even where another one is
as near; there is but one (`IsNearest.unique`).

* `isNearest_nearest`: what a quotient of units is rounded to is nearest to it, as rounding its
  mantissa is on the grid around it (`unboundedNearest_spec`);
* `Decimal.isNearest_magnitude`: so a decimal denotes the nearest double.
-/

namespace Derivatives.Number

/-! ## The grid of the magnitudes -/

section Grid

variable {b b' e m : Nat}

/-- A magnitude is made of the doublings of the unit and a mantissa, which has a leading bit
    unless the unit is not doubled. -/
theorem units_mantissa (hm : m ≤ 2 * binade) (h : e = 0 ∨ binade ≤ m) :
    units (e * binade + m) = m * 2 ^ e := by
  have hpos : 0 < binade := by decide
  rcases Nat.lt_or_ge m binade with hlt | hge
  · obtain rfl : e = 0 := h.resolve_right (Nat.not_le.2 hlt)
    rw [Nat.zero_mul, Nat.zero_add, units, if_pos hlt, Nat.pow_zero, Nat.mul_one]
  rw [units, if_neg (Nat.not_lt.2 (Nat.le_add_left_of_le hge))]
  rcases Nat.lt_or_ge m (2 * binade) with hlt | hge'
  · have hdiv : (e * binade + m) / binade = e + 1 :=
      Nat.div_eq_of_lt_le (by rw [Nat.succ_mul]; omega) (by rw [Nat.succ_mul, Nat.succ_mul]; omega)
    have hmod : (e * binade + m) % binade = m - binade := by
      rw [Nat.mod_eq_sub_mul_div, hdiv, Nat.mul_succ, Nat.mul_comm]
      omega
    rw [hdiv, hmod, Nat.add_sub_cancel' hge, Nat.shiftLeft_eq, Nat.add_sub_cancel]
  · -- A mantissa of 54 bits is that of the next power of two.
    obtain rfl : m = 2 * binade := Nat.le_antisymm hm hge'
    rw [← Nat.add_mul, Nat.mul_div_cancel _ hpos, Nat.mul_mod_left, Nat.add_zero, Nat.shiftLeft_eq,
      Nat.add_sub_assoc (by decide), Nat.pow_succ]
    ring

/-- The doublings and the mantissa of a magnitude. -/
theorem exists_mantissa (b : Nat) : ∃ m, b = (b / binade - 1) * binade + m ∧ m < 2 * binade ∧
    (b / binade - 1 = 0 ∨ binade ≤ m) := by
  refine ⟨b - (b / binade - 1) * binade, ?_⟩
  unfold binade
  omega

/-- From one magnitude to the next, it is a step of the grid. -/
theorem units_succ (b : Nat) : units (b + 1) = units b + 2 ^ (b / binade - 1) := by
  obtain ⟨m, hb, hm, h⟩ := exists_mantissa b
  conv_lhs => rw [hb, Nat.add_assoc, units_mantissa hm (h.imp_right Nat.le_succ_of_le)]
  conv_rhs => rw [hb, units_mantissa (Nat.le_of_lt hm) h, ← hb]
  rw [Nat.succ_mul]

theorem units_strictMono : StrictMono units :=
  strictMono_nat_of_lt_succ fun b => by
    rw [units_succ]
    exact Nat.lt_add_of_pos_right (Nat.two_pow_pos _)

/-- Magnitudes with one between them that is followed by a step are a step apart. -/
theorem units_add_le {c : Nat} (hb : b ≤ c) (hc : c < b') (he : e ≤ c / binade - 1) :
    units b + 2 ^ e ≤ units b' :=
  calc units b + 2 ^ e ≤ units c + 2 ^ (c / binade - 1) :=
        Nat.add_le_add (units_strictMono.monotone hb) (Nat.pow_le_pow_right Nat.two_pos he)
    _ = units (c + 1) := (units_succ c).symm
    _ ≤ units b' := units_strictMono.monotone hc

theorem le_div_binade (h : e = 0 ∨ binade ≤ m) : e ≤ (e * binade + m) / binade - 1 := by
  rcases h with rfl | h
  · exact Nat.zero_le _
  · exact Nat.le_sub_of_add_le ((Nat.le_div_iff_mul_le (by decide)).2 (by rw [Nat.succ_mul]; omega))

end Grid

/-! ## Nearest doubles -/

/-- The rational number that a magnitude stands for; infinity stands for the power of two
    behind the largest finite double. -/
def rational (b : Nat) : ℚ := units b / 2 ^ unitScale

/-- A magnitude is that of the double nearest to a number, the even one of two. -/
structure IsNearest (q : ℚ) (b : Nat) : Prop where
  le_infinite : b ≤ infinite
  abs_sub_le : ∀ b' ≤ infinite, |q - rational b| ≤ |q - rational b'|
  even : ∀ b' ≤ infinite, b' ≠ b → |q - rational b| = |q - rational b'| → Even b

theorem rational_strictMono : StrictMono rational := fun b b' h =>
  (div_lt_div_iff_of_pos_right (by positivity)).2 (Nat.cast_lt.2 (units_strictMono h))

section Nearest

variable {q : ℚ} {b b' : Nat}

/-- What lies between two magnitudes at the same distance is nearer than they are. -/
theorem abs_sub_lt_of_lt (hlt : b + 1 < b') (h : |q - rational b| = |q - rational b'|) :
    |q - rational (b + 1)| < |q - rational b| := by
  have hbelow := rational_strictMono (Nat.lt_succ_self b)
  have habove := rational_strictMono hlt
  rcases abs_eq_abs.1 h with h | h
  · linarith
  · have hmid : rational b < q := by linarith
    rw [abs_of_pos (sub_pos.2 hmid), abs_sub_lt_iff]
    constructor <;> linarith

/-- There is but one nearest magnitude. -/
theorem IsNearest.unique (h : IsNearest q b) (h' : IsNearest q b') : b = b' := by
  wlog hlt : b < b' generalizing b b'
  · rcases Nat.lt_or_eq_of_le (Nat.not_lt.1 hlt) with hlt | rfl
    · exact (this h' h hlt).symm
    · rfl
  have heq : |q - rational b| = |q - rational b'| :=
    le_antisymm (h.abs_sub_le b' h'.le_infinite) (h'.abs_sub_le b h.le_infinite)
  -- Both are even, so that there is another one between them.
  obtain ⟨k, hk⟩ := h.even b' h'.le_infinite (Nat.ne_of_gt hlt) heq
  obtain ⟨k', hk'⟩ := h'.even b h.le_infinite (Nat.ne_of_lt hlt) heq.symm
  have hnext : b + 1 < b' := by omega
  have hle := h.abs_sub_le (b + 1) (Nat.le_of_lt (Nat.lt_of_lt_of_le hnext h'.le_infinite))
  exact absurd hle (not_le.2 (abs_sub_lt_of_lt hnext heq))

/-- A number of units is nearest to a magnitude if no other is nearer in units. -/
theorem isNearest_of_units (hb : b ≤ infinite)
    (hle : ∀ b' ≤ infinite, |q - units b| ≤ |q - units b'|)
    (heven : ∀ b' ≤ infinite, b' ≠ b → |q - units b| = |q - units b'| → Even b) :
    IsNearest (q / 2 ^ unitScale) b := by
  have hscale : (0 : ℚ) < 2 ^ unitScale := by positivity
  have habs (b : Nat) : |q / 2 ^ unitScale - rational b| = |q - units b| / 2 ^ unitScale := by
    rw [rational, ← sub_div, abs_div, abs_of_pos hscale]
  refine ⟨hb, fun b' hb' => ?_, fun b' hb' hne h => heven b' hb' hne ?_⟩
  · rw [habs, habs]
    exact div_le_div_of_nonneg_right (hle b' hb') hscale.le
  · rw [habs, habs] at h
    exact (div_left_inj' hscale.ne').1 h

/-- A number of units not below infinity is nearest to it. -/
theorem isNearest_infinite (h : (units infinite : ℚ) ≤ q) :
    IsNearest (q / 2 ^ unitScale) infinite := by
  refine isNearest_of_units (Nat.le_refl _) (fun b' hb' => ?_) fun _ _ _ _ => by decide
  have hle : (units b' : ℚ) ≤ units infinite := Nat.cast_le.2 (units_strictMono.monotone hb')
  rw [abs_of_nonneg (sub_nonneg.2 h), abs_of_nonneg (sub_nonneg.2 (hle.trans h))]
  linarith

/-- A number of less than half a unit is nearest to zero. -/
theorem isNearest_zero (h0 : 0 ≤ q) (h : 2 * q < 1) : IsNearest (q / 2 ^ unitScale) 0 := by
  have hzero : units 0 = 0 := rfl
  have hlt (b' : Nat) (hne : b' ≠ 0) : |q - units 0| < |q - units b'| := by
    have hone : (1 : ℚ) ≤ units b' := by
      exact_mod_cast Nat.succ_le_of_lt (units_strictMono (Nat.pos_of_ne_zero hne))
    rw [hzero, Nat.cast_zero, sub_zero, abs_of_nonneg h0, lt_abs]
    right
    linarith
  refine isNearest_of_units (Nat.zero_le _) (fun b' _ => ?_) fun b' _ hne heq => ?_
  · rcases eq_or_ne b' 0 with rfl | hne
    · exact le_refl _
    · exact (hlt b' hne).le
  · exact absurd heq (hlt b' hne).ne

/-- What is at most half a step away, on a grid on which no other magnitude lies within a
    step, is nearest. -/
theorem isNearest_of_step {step : ℚ} (hb : b ≤ infinite) (hclose : 2 * |q - units b| ≤ step)
    (htie : 2 * |q - units b| = step → Even b)
    (habove : ∀ b', b < b' → units b + step ≤ units b')
    (hbelow : q < units b → ∀ b' < b, units b' + step ≤ units b) :
    IsNearest (q / 2 ^ unitScale) b := by
  -- Any other magnitude is half a step away at least, unless it is even farther away.
  have hother (b' : Nat) (hne : b' ≠ b) :
      |q - units b| < |q - units b'| ∨ step ≤ 2 * |q - units b'| := by
    rcases Nat.lt_or_gt_of_ne hne with hlt | hgt
    · rcases lt_or_ge q (units b) with hq | hq
      · have := hbelow hq b' hlt
        have := neg_abs_le (q - units b)
        have := le_abs_self (q - units b')
        exact .inr (by linarith)
      · have hcast : (units b' : ℚ) < units b := Nat.cast_lt.2 (units_strictMono hlt)
        rw [abs_of_nonneg (sub_nonneg.2 hq), abs_of_pos (sub_pos.2 (hcast.trans_le hq))]
        exact .inl (by linarith)
    · have := habove b' hgt
      have := le_abs_self (q - units b)
      have := neg_abs_le (q - units b')
      exact .inr (by linarith)
  refine isNearest_of_units hb (fun b' _ => ?_) fun b' _ hne heq => htie ?_
  · rcases eq_or_ne b' b with rfl | hne
    · exact le_refl _
    · rcases hother b' hne with h | h
      · exact h.le
      · linarith
  · rcases hother b' hne with h | h
    · exact absurd heq h.ne
    · exact le_antisymm hclose (by rw [heq]; exact h)

end Nearest

/-! ## Rounding to the nearest double -/

section Rounding

variable {n d : Nat}

/-- A quotient is at most one half away from the natural number it is rounded to, which is
    even if it is one half away. -/
theorem abs_sub_roundDiv_mul_le (hd : 0 < d) :
    2 * |(n : ℤ) - roundDiv n d * d| ≤ d ∧
      (2 * |(n : ℤ) - roundDiv n d * d| = d → Even (roundDiv n d)) := by
  have hlt : n % d < d := Nat.mod_lt n hd
  have hn : (n : ℤ) - (n / d : Nat) * d = (n % d : Nat) := by
    rw [sub_eq_iff_eq_add]
    exact_mod_cast (Nat.mod_add_div' n d).symm
  have hbelow : |(n : ℤ) - (n / d : Nat) * d| = (n % d : Nat) := by
    rw [hn, abs_of_nonneg (Int.natCast_nonneg _)]
  have habove : |(n : ℤ) - (n / d + 1 : Nat) * d| = (d - n % d : Nat) := by
    rw [Nat.cast_add_one, add_mul, one_mul, ← sub_sub, hn, abs_sub_comm,
      Nat.cast_sub (Nat.le_of_lt hlt), abs_of_nonneg (by omega)]
  -- The remainder is below half of the divisor, half of it, or above.
  unfold roundDiv
  split
  · next h =>
    rw [Nat.compare_eq_lt] at h
    rw [hbelow]
    omega
  · next h =>
    rw [Nat.compare_eq_eq] at h
    rcases Nat.mod_two_eq_zero_or_one (n / d) with heven | hodd
    · rw [heven, Nat.add_zero, hbelow]
      exact ⟨by omega, fun _ => Nat.even_iff.2 heven⟩
    · rw [hodd, habove]
      exact ⟨by omega, fun _ => Nat.even_add_one.2 (Nat.not_even_iff.2 hodd)⟩
  · next h =>
    rw [Nat.compare_eq_gt] at h
    rw [habove]
    omega

theorem div_le_roundDiv (n d : Nat) : n / d ≤ roundDiv n d ∧ roundDiv n d ≤ n / d + 1 := by
  unfold roundDiv
  split <;> omega

/-- The doublings of the unit leave a mantissa of 53 bits, or there are none. -/
theorem div_lt_two_pow (q : Nat) :
    q < 2 ^ (q.log2 - 52) * (2 * binade) ∧
      (q.log2 - 52 = 0 ∨ 2 ^ (q.log2 - 52) * binade ≤ q) := by
  have hbinade : binade = 2 ^ 52 := rfl
  rcases Nat.eq_zero_or_pos q with rfl | hq
  · exact ⟨by decide, .inl rfl⟩
  rw [hbinade, ← Nat.pow_succ', ← pow_add, ← pow_add]
  constructor
  · exact (Nat.log2_lt (Nat.ne_of_gt hq)).1 (by omega)
  · refine (Nat.eq_zero_or_pos (q.log2 - 52)).imp_right fun h => ?_
    rw [Nat.sub_add_cancel (by omega)]
    exact Nat.log2_self_le (Nat.ne_of_gt hq)

/-- The magnitude that a quotient of units is rounded to, were there no bound on the
    exponents: what is rounded is the mantissa. -/
def unboundedNearest (n d : Nat) : Nat :=
  ((n / d).log2 - 52) * binade + roundDiv n (d <<< ((n / d).log2 - 52))

theorem nearest_eq (n d : Nat) : nearest n d = min infinite (unboundedNearest n d) := rfl

theorem abs_div_sub_mul (hd : 0 < d) (n m e : Nat) :
    |(n / d : ℚ) - (m * 2 ^ e : Nat)| = (|(n : ℤ) - m * (d * 2 ^ e : Nat)| : ℤ) / d := by
  have hd' : (0 : ℚ) < d := Nat.cast_pos.2 hd
  have hsub : (n / d : ℚ) - (m * 2 ^ e : Nat) = ((n : ℤ) - m * (d * 2 ^ e : Nat) : ℤ) / d := by
    push_cast
    field_simp
  rw [hsub, abs_div, abs_of_pos hd', Int.cast_abs]

/-- The grid around a quotient: the magnitude on it that the quotient is rounded to is half a
    step away at most, and a step from any other one, on the side of the quotient. -/
theorem unboundedNearest_spec (hd : 0 < d) : ∃ e : Nat,
    2 * |(n / d : ℚ) - units (unboundedNearest n d)| ≤ 2 ^ e ∧
    (2 * |(n / d : ℚ) - units (unboundedNearest n d)| = 2 ^ e → Even (unboundedNearest n d)) ∧
    (∀ b', unboundedNearest n d < b' → (units (unboundedNearest n d) : ℚ) + 2 ^ e ≤ units b') ∧
    ((n / d : ℚ) < units (unboundedNearest n d) →
      ∀ b' < unboundedNearest n d, (units b' : ℚ) + 2 ^ e ≤ units (unboundedNearest n d)) := by
  obtain ⟨e, he⟩ : ∃ e, e = (n / d).log2 - 52 := ⟨_, rfl⟩
  obtain ⟨m, hm⟩ : ∃ m, m = roundDiv n (d <<< e) := ⟨_, rfl⟩
  obtain ⟨hlt, hle⟩ := div_lt_two_pow (n / d)
  have hround := div_le_roundDiv n (d <<< e)
  have hround_close := abs_sub_roundDiv_mul_le (n := n) (d := d <<< e)
    (by rw [Nat.shiftLeft_eq]; exact Nat.mul_pos hd (Nat.two_pow_pos e))
  rw [← he] at hlt hle
  rw [← hm, Nat.shiftLeft_eq] at hround hround_close
  rw [← Nat.div_div_eq_div_mul] at hround
  rw [unboundedNearest, ← he, ← hm]
  -- The mantissa fills its 53 bits, or fewer where the unit is not doubled.
  have hm_le : m ≤ 2 * binade := by
    have := Nat.div_lt_of_lt_mul hlt
    omega
  have hbinade_le : e = 0 ∨ binade ≤ m := hle.imp_right fun h => by
    have := (Nat.le_div_iff_mul_le (Nat.two_pow_pos e)).2 (Nat.mul_comm _ _ ▸ h)
    omega
  have hunits := units_mantissa hm_le hbinade_le
  have hd' : (0 : ℚ) < d := Nat.cast_pos.2 hd
  have hstep : (2 : ℚ) ^ e = ((d * 2 ^ e : Nat) : ℤ) / d := by
    push_cast
    field_simp
  have habs : 2 * |(n / d : ℚ) - units (e * binade + m)| =
      (2 * |(n : ℤ) - m * (d * 2 ^ e : Nat)| : ℤ) / d := by
    rw [hunits, abs_div_sub_mul hd, Int.cast_mul, mul_div_assoc, Int.cast_ofNat]
  refine ⟨e, ?_, fun h => ?_, fun b' hb' => ?_, fun hq b' hb' => ?_⟩
  · rw [habs, hstep]
    exact div_le_div_of_nonneg_right (Int.cast_le.2 hround_close.1) hd'.le
  · rw [habs, hstep, div_left_inj' hd'.ne', Int.cast_inj] at h
    exact ((show Even binade by decide).mul_left e).add (hround_close.2 h)
  · exact_mod_cast units_add_le (Nat.le_refl _) hb' (le_div_binade hbinade_le)
  · -- The last magnitude below is followed by a step, too, as it is not below the power of two.
    have hlt_m : e = 0 ∨ binade < m := hle.imp_right fun h => by
      have hcast : ((2 ^ e * binade : Nat) : ℚ) < (m * 2 ^ e : Nat) := by
        rw [← hunits]
        exact lt_of_le_of_lt ((Nat.cast_le.2 h).trans Nat.cast_div_le) hq
      rw [Nat.cast_lt, Nat.mul_comm m] at hcast
      exact Nat.lt_of_mul_lt_mul_left hcast
    have hle_c : e ≤ (e * binade + m - 1) / binade - 1 := by
      rcases hlt_m with rfl | hlt_m
      · exact Nat.zero_le _
      · rw [Nat.add_sub_assoc (by omega)]
        exact le_div_binade (.inr (by omega))
    exact_mod_cast units_add_le (b := b') (c := e * binade + m - 1) (by omega) (by omega) hle_c

/-- What a quotient of units is rounded to is the nearest double. -/
theorem isNearest_nearest (hd : 0 < d) :
    IsNearest ((n / d : ℚ) / 2 ^ unitScale) (nearest n d) := by
  obtain ⟨e, hclose, htie, habove, hbelow⟩ := unboundedNearest_spec (n := n) hd
  rw [nearest_eq]
  rcases Nat.lt_or_ge infinite (unboundedNearest n d) with h | h
  · -- Beyond infinity, the quotient is not below it, or it would be more than a step away.
    rw [Nat.min_eq_left (Nat.le_of_lt h)]
    refine isNearest_infinite (not_lt.1 fun hlt => ?_)
    have hunits : (units infinite : ℚ) < units (unboundedNearest n d) :=
      Nat.cast_lt.2 (units_strictMono h)
    have hstep := hbelow (hlt.trans hunits) infinite h
    have := neg_abs_le ((n / d : ℚ) - units (unboundedNearest n d))
    have hpos : (0 : ℚ) < 2 ^ e := by positivity
    linarith
  · rw [Nat.min_eq_right h]
    exact isNearest_of_step h hclose htie habove hbelow

end Rounding

/-! ## The double of a decimal -/

namespace Decimal

/-- The rational number that a decimal is. -/
def toRat (d : Decimal) : ℚ := d.coefficient * 10 ^ d.exponent

variable {c : Nat} {e : Int}

/-- Infinity stands for the power of two of exponent 1024. -/
theorem units_infinite : (units infinite : ℚ) = 2 ^ 1024 * 2 ^ unitScale := by
  have hunits : units (2046 * binade + binade) = binade * 2 ^ 2046 :=
    units_mantissa (by decide) (.inr (Nat.le_refl _))
  have hinfinite : infinite = 2046 * binade + binade := rfl
  rw [hinfinite, hunits, ← pow_add, unitScale, Nat.cast_mul, Nat.cast_pow, Nat.cast_ofNat]
  have hbinade : (binade : ℚ) = 2 ^ 52 := by norm_num [binade]
  rw [hbinade, ← pow_add]

theorem toRat_mk (c : Nat) (e : Int) : toRat ⟨c, e⟩ = c * 10 ^ e := rfl

theorem two_pow_lt_ten_pow {k n : Nat} (h : k < 3 * n) : (2 : ℚ) ^ k < 10 ^ n :=
  calc (2 : ℚ) ^ k < 2 ^ (3 * n) := pow_lt_pow_right₀ (by norm_num) h
    _ = 8 ^ n := by rw [pow_mul]; norm_num
    _ ≤ 10 ^ n := pow_le_pow_left₀ (by norm_num) (by norm_num) n

/-- A decimal with a large exponent is beyond all finite doubles. -/
theorem units_infinite_le (hc : c ≠ 0) (he : 400 < e) :
    (units infinite : ℚ) ≤ toRat ⟨c, e⟩ * 2 ^ unitScale := by
  have hone : (1 : ℚ) ≤ c := Nat.one_le_cast.2 (Nat.pos_of_ne_zero hc)
  have hpow : (2 : ℚ) ^ 1024 ≤ 10 ^ e :=
    calc (2 : ℚ) ^ 1024 ≤ 10 ^ 401 := (two_pow_lt_ten_pow (by decide)).le
      _ = 10 ^ (401 : Int) := (zpow_natCast _ _).symm
      _ ≤ 10 ^ e := zpow_le_zpow_right₀ (by norm_num) he
  rw [units_infinite, toRat_mk]
  exact mul_le_mul_of_nonneg_right (hpow.trans (le_mul_of_one_le_left (by positivity) hone))
    (by positivity)

/-- A decimal with a small exponent is below half a unit. -/
theorem toRat_lt (he : e + c.log2 < -400) : 2 * (toRat ⟨c, e⟩ * 2 ^ unitScale) < 1 := by
  have hc : (c : ℚ) < 10 ^ (c.log2 + 1 : Int) :=
    calc (c : ℚ) < (2 ^ (c.log2 + 1) : Nat) := Nat.cast_lt.2 Nat.lt_log2_self
      _ ≤ (10 ^ (c.log2 + 1) : Nat) := Nat.cast_le.2 (Nat.pow_le_pow_left (by decide) _)
      _ = 10 ^ (c.log2 + 1 : Int) := by push_cast; norm_cast
  have hpow : toRat ⟨c, e⟩ < (10 ^ 400)⁻¹ :=
    calc toRat ⟨c, e⟩ < 10 ^ (c.log2 + 1 : Int) * 10 ^ e :=
          mul_lt_mul_of_pos_right hc (by positivity)
      _ = 10 ^ (c.log2 + 1 + e : Int) := (zpow_add₀ (by norm_num) _ _).symm
      _ ≤ 10 ^ (-400 : Int) := zpow_le_zpow_right₀ (by norm_num) (by omega)
      _ = (10 ^ 400)⁻¹ := by rw [zpow_neg]; norm_cast
  calc 2 * (toRat ⟨c, e⟩ * 2 ^ unitScale) = toRat ⟨c, e⟩ * 2 ^ (unitScale + 1) := by ring
    _ < (10 ^ 400)⁻¹ * 2 ^ (unitScale + 1) := mul_lt_mul_of_pos_right hpow (by positivity)
    _ < (10 ^ 400)⁻¹ * 10 ^ 400 :=
      mul_lt_mul_of_pos_left (two_pow_lt_ten_pow (by decide)) (by positivity)
    _ = 1 := inv_mul_cancel₀ (by positivity)

/-- A decimal is a quotient of units, the positive and the negative powers of ten apart. -/
theorem toRat_mul_eq_div (c : Nat) (e : Int) : toRat ⟨c, e⟩ * 2 ^ unitScale =
    ((c * tenPow e.toNat) <<< unitScale : Nat) / (tenPow (-e).toNat : Nat) := by
  have hpow : (10 : ℚ) ^ e = (10 ^ e.toNat : Nat) / (10 ^ (-e).toNat : Nat) := by
    rw [eq_div_iff (by positivity), Nat.cast_pow, Nat.cast_pow, Nat.cast_ofNat, ← zpow_natCast,
      ← zpow_natCast, ← zpow_add₀ (by norm_num)]
    congr 1
    omega
  rw [toRat_mk, hpow, Nat.shiftLeft_eq]
  change _ = ((c * 10 ^ e.toNat * 2 ^ unitScale : Nat) : ℚ) / (10 ^ (-e).toNat : Nat)
  push_cast
  ring

/-- A decimal denotes the nearest double. -/
theorem isNearest_magnitude (d : Decimal) : IsNearest d.toRat d.magnitude := by
  obtain ⟨c, e⟩ := d
  have hscale : toRat ⟨c, e⟩ = toRat ⟨c, e⟩ * 2 ^ unitScale / 2 ^ unitScale :=
    (mul_div_cancel_right₀ _ (by positivity)).symm
  rw [hscale, magnitude]
  split_ifs with hc he hsmall
  · have hzero : toRat ⟨c, e⟩ = 0 := by
      rw [toRat_mk, show c = 0 from hc, Nat.cast_zero, zero_mul]
    rw [hzero, zero_mul]
    exact isNearest_zero (le_refl 0) (by norm_num)
  · exact isNearest_infinite (units_infinite_le hc he)
  · exact isNearest_zero (by rw [toRat_mk]; positivity) (toRat_lt hsmall)
  · rw [toRat_mul_eq_div]
    exact isNearest_nearest (tenPow_pos _)

end Decimal

end Derivatives.Number
