/-!
# Doubles as whole numbers of units

Every finite double is a whole number of *units*, the unit being the smallest
positive double. The *magnitude* of a double is its bit pattern without the
sign; read as a natural number it orders the doubles by absolute value, zero
first, then the numbers of units `units b`, then infinity (`infinite`), and
above it what is no number at all.

The way back is rounding: `nearest n d` is the magnitude nearest to `n / d`
units, ties going to the even neighbour. Both are exact arithmetic of natural
numbers, and a double is its own rounding (`nearest_units`).
-/

namespace Derivatives.Number

/-- The number of magnitudes from one power of two to the next: 2 to the 52. -/
def binade : Nat := 4503599627370496

/-- The sign bit: 2 to the 63. -/
def signBit : Nat := 9223372036854775808

/-- The magnitude of infinity. -/
def infinite : Nat := 2047 * binade

/-- The magnitude of a double: its bits without the sign. -/
def magnitude (x : Float) : Nat := x.toBits.toNat % signBit

/-- Whether the sign bit of a double is set. -/
def isNegative (x : Float) : Bool := signBit ≤ x.toBits.toNat

/-- The double of the given sign and magnitude. -/
def ofMagnitude (negative : Bool) (b : Nat) : Float :=
  .ofBits (UInt64.ofNat (if negative then b + signBit else b))

/-- The double that is no number. -/
def nan : Float := ofMagnitude false (infinite + binade / 2)

/-- The number of units in 1, as a power of two. -/
def unitScale : Nat := 1074

/-- The number of units in the magnitude `b`. Below the first binade it is `b`
    itself; above, the place in the binade is the mantissa less its leading bit,
    and the binade counts the doublings of the unit. -/
def units (b : Nat) : Nat :=
  if b < binade then b else (binade + b % binade) <<< (b / binade - 1)

/-- The natural number nearest to `n / d`, the even one of two. -/
def roundDiv (n d : Nat) : Nat :=
  match compare (2 * (n % d)) d with
  | .lt => n / d
  | .eq => n / d + n / d % 2
  | .gt => n / d + 1

/-- The magnitude nearest to `n / d` units, the even one of two. -/
def nearest (n d : Nat) : Nat :=
  -- the doublings of the unit that leave a mantissa of 53 bits
  let e := (n / d).log2 - 52
  -- a mantissa rounded up to 54 bits carries into the next magnitude by itself
  min infinite (e * binade + roundDiv n (d <<< e))

/-! ## A double is its own rounding -/

theorem roundDiv_mul {d : Nat} (m : Nat) (hd : 0 < d) : roundDiv (m * d) d = m := by
  have h : compare 0 d = .lt := Nat.compare_eq_lt.2 hd
  simp [roundDiv, h, Nat.mul_div_cancel m hd]

/-- Above the first binade, a mantissa has 53 bits. -/
theorem log2_units {b : Nat} (hb : binade ≤ b) : (units b).log2 = 52 + (b / binade - 1) := by
  have hr : b % binade < binade := Nat.mod_lt _ (by decide)
  have hpos : 0 < binade := by decide
  rw [units, if_neg (Nat.not_lt.2 hb), Nat.shiftLeft_eq,
    Nat.log2_eq_iff (Nat.mul_ne_zero (by omega) (Nat.ne_of_gt (Nat.two_pow_pos _))),
    Nat.add_right_comm, Nat.pow_add, Nat.pow_add]
  exact ⟨Nat.mul_le_mul_right _ (Nat.le_add_right _ _),
    Nat.mul_lt_mul_of_pos_right (by unfold binade at *; omega) (Nat.two_pow_pos _)⟩

/-- Above the first binade, a mantissa and its doublings make up its magnitude. -/
theorem doublings_add_mantissa {b : Nat} (hb : binade ≤ b) :
    (b / binade - 1) * binade + (binade + b % binade) = b := by
  unfold binade at *
  omega

/-- A double is its own rounding, whatever fraction its units are written as. -/
theorem nearest_units {b k : Nat} (hb : b ≤ infinite) (hk : 0 < k) :
    nearest (units b * k) k = b := by
  rw [nearest, Nat.mul_div_cancel _ hk]
  by_cases h : b < binade
  · -- In the first binade the unit is not doubled.
    have he : b.log2 - 52 = 0 := by
      rcases Nat.eq_zero_or_pos b with rfl | hpos
      · decide
      · have := (Nat.log2_lt (Nat.ne_of_gt hpos)).2 (show b < 2 ^ 53 by unfold binade at h; omega)
        omega
    simp only [units, if_pos h, he, Nat.shiftLeft_zero, Nat.zero_mul, Nat.zero_add,
      roundDiv_mul _ hk]
    exact Nat.min_eq_right hb
  · -- Above it, what is divided is the mantissa times the doublings.
    have h := Nat.le_of_not_lt h
    simp only [log2_units h, Nat.add_sub_cancel_left]
    rw [units, if_neg (Nat.not_lt.2 h), Nat.shiftLeft_eq, Nat.shiftLeft_eq, Nat.mul_assoc,
      Nat.mul_comm (2 ^ _) k, roundDiv_mul _ (Nat.mul_pos hk (Nat.two_pow_pos _)),
      doublings_add_mantissa h]
    exact Nat.min_eq_right hb

end Derivatives.Number
