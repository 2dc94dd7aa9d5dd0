import Derivatives.Number.Display
import Derivatives.Proofs.Number.Encoding
import Derivatives.Proofs.Number.Numeral

/-!
# What is written of a number reads back

The decimal that stands for a finite double denotes it (`magnitude_shortest`):
each decimal that is tried is one that does, and the last resort has all digits of
the double. Written out in full, a decimal is a literal without an exponent
(`Decimal.numeral`), which denotes what the decimal does unless that is infinite
(`Decimal.magnitude_decimal_numeral`). So the text of a finite double without a sign
is a literal of that double (`exists_display_eq`).
-/

namespace Derivatives.Number

/-! ## The decimal of a double -/

theorem eq_zero_of_units_eq_zero {b : Nat} (h : units b = 0) : b = 0 := by
  unfold units at h
  split_ifs at h with hb
  · exact h
  · have hpos : 0 < (binade + b % binade) <<< (b / binade - 1) := by
      rw [Nat.shiftLeft_eq]
      exact Nat.mul_pos (by unfold binade; omega) (Nat.two_pow_pos _)
    omega

theorem Decimal.magnitude_zero (e : Int) : magnitude ⟨0, e⟩ = 0 := if_pos rfl

/-- A decimal that is neither far too large nor far too small denotes the nearest
    magnitude. -/
theorem Decimal.magnitude_eq_nearest {c : Nat} {e : Int} (hc : c ≠ 0) (hlarge : e ≤ 400)
    (hsmall : -400 ≤ e + c.log2) :
    magnitude ⟨c, e⟩ =
      nearest ((c * tenPow e.toNat) <<< unitScale) (tenPow (-e).toNat) := by
  rw [magnitude, if_neg hc, if_neg (Int.not_lt.2 hlarge), if_neg (Int.not_lt.2 hsmall)]

theorem tenPow_pos (k : Nat) : 0 < tenPow k := Nat.pow_pos (by decide)

theorem le_log2_mul_pow {u : Nat} (k : Nat) (hu : u ≠ 0) :
    u * Nat.pow 5 k ≠ 0 ∧ k ≤ (u * Nat.pow 5 k).log2 := by
  have hpow : 2 ^ k ≤ u * Nat.pow 5 k :=
    Nat.le_trans (Nat.pow_le_pow_left (by decide) k)
      (Nat.le_mul_of_pos_left _ (Nat.pos_of_ne_zero hu))
  have hne : u * Nat.pow 5 k ≠ 0 := Nat.ne_of_gt (Nat.lt_of_lt_of_le (Nat.two_pow_pos k) hpow)
  exact ⟨hne, (Nat.le_log2 hne).2 hpow⟩

theorem mul_pow_shiftLeft (u k : Nat) : (u * Nat.pow 5 k * tenPow 0) <<< k = u * tenPow k := by
  have hone : tenPow 0 = 1 := rfl
  rw [hone, Nat.mul_one, Nat.shiftLeft_eq, Nat.mul_assoc]
  exact congrArg _ (Nat.mul_pow 5 2 k).symm

/-- The decimal of all digits of a double denotes it. -/
theorem magnitude_exactDecimal {b : Nat} (hb : b ≤ infinite) (hu : units b ≠ 0) :
    (exactDecimal (units b)).magnitude = b := by
  obtain ⟨hne, hlog⟩ := le_log2_mul_pow unitScale hu
  rw [exactDecimal, Decimal.magnitude_eq_nearest hne (by omega) (by omega), Int.neg_neg,
    Int.toNat_natCast, Int.toNat_neg_natCast, mul_pow_shiftLeft]
  exact nearest_units hb (tenPow_pos unitScale)

/-- The decimal that stands for a finite double denotes it. -/
theorem magnitude_shortest (tie : Tie) {b : Nat} (hb : b < infinite) :
    (shortest tie b).magnitude = b := by
  rw [shortest]
  split_ifs with hu
  · rw [eq_zero_of_units_eq_zero hu, Decimal.magnitude_zero]
  · generalize hfound : List.findSome? _ (List.range 17) = found
    cases found with
    | none => exact magnitude_exactDecimal (Nat.le_of_lt hb) hu
    | some d =>
      obtain ⟨n, -, hn⟩ := List.exists_of_findSome?_eq_some hfound
      have hd := List.find?_some hn
      rw [Option.getD_some]
      simpa using hd

/-! ## A decimal in full is a literal -/

namespace Decimal

/-- The digits of a decimal with a negative exponent, with zeros in front of them, so
    that there is one before the point. -/
def paddedDigits (d : Decimal) : List Char :=
  List.replicate ((-d.exponent).toNat + 1 - d.digits.length) '0' ++ d.digits

/-- The number of digits before the point of a decimal with a negative exponent. -/
def wholeLength (d : Decimal) : Nat := d.paddedDigits.length - (-d.exponent).toNat

/-- A decimal written out in full, as a numeral. -/
def numeral (d : Decimal) : Numeral :=
  if 0 ≤ d.exponent then ⟨d.digits ++ List.replicate d.exponent.toNat '0', none, none⟩
  else ⟨d.paddedDigits.take d.wholeLength, some (d.paddedDigits.drop d.wholeLength), none⟩

theorem text_numeral (d : Decimal) : d.numeral.text = d.positional := by
  rw [numeral, positional]
  split_ifs
  · simp [Numeral.text]
  · simp [Numeral.text, paddedDigits, wholeLength]

theorem isDigit_of_mem_digits {d : Decimal} {c : Char} (hc : c ∈ d.digits) : c.isDigit :=
  Nat.isDigit_of_mem_toDigits (by decide) (by decide) hc

theorem isDigit_of_mem_paddedDigits {d : Decimal} {c : Char} (hc : c ∈ d.paddedDigits) :
    c.isDigit := by
  rcases List.mem_append.1 hc with h | h
  · rw [List.eq_of_mem_replicate h]
    rfl
  · exact isDigit_of_mem_digits h

theorem lt_length_paddedDigits (d : Decimal) : (-d.exponent).toNat < d.paddedDigits.length := by
  rw [paddedDigits, List.length_append, List.length_replicate]
  omega

theorem exponent_numeral (d : Decimal) : d.numeral.exponent = none := by
  rw [numeral]
  split_ifs <;> rfl

theorem isLiteral_numeral (d : Decimal) : d.numeral.IsLiteral := by
  rw [numeral]
  split_ifs with h
  · refine ⟨⟨fun c hc => ?_, by simp, by simp⟩, by simp [digits, Nat.toDigits_ne_nil]⟩
    rcases List.mem_append.1 hc with hc | hc
    · exact isDigit_of_mem_digits hc
    · rw [List.eq_of_mem_replicate hc]
      rfl
  · have hlt := d.lt_length_paddedDigits
    refine ⟨⟨fun c hc => isDigit_of_mem_paddedDigits (List.mem_of_mem_take hc), ?_, by simp⟩, ?_⟩
    · rintro ds hds c hc
      obtain rfl := Option.some.inj hds
      exact isDigit_of_mem_paddedDigits (List.mem_of_mem_drop hc)
    · rw [ne_eq, List.take_eq_nil_iff, wholeLength]
      rintro (h | h)
      · omega
      · rw [h] at hlt
        exact Nat.not_lt_zero _ hlt

/-- The zeros of a positive exponent can be among the digits. -/
theorem magnitude_mul_tenPow {c : Nat} {e : Int} (he : 0 ≤ e) (h : magnitude ⟨c, e⟩ < infinite) :
    magnitude ⟨c * tenPow e.toNat, 0⟩ = magnitude ⟨c, e⟩ := by
  rcases Nat.eq_zero_or_pos c with rfl | hc
  · rw [Nat.zero_mul, magnitude_zero, magnitude_zero]
  have hlarge : e ≤ 400 := by
    by_contra hlt
    rw [magnitude, if_neg (Nat.ne_of_gt hc), if_pos (Int.not_le.1 hlt)] at h
    exact Nat.lt_irrefl _ h
  have hscale : (-e).toNat = 0 := Int.toNat_eq_zero.2 (by omega)
  have hone : tenPow 0 = 1 := rfl
  rw [magnitude_eq_nearest (Nat.ne_of_gt (Nat.mul_pos hc (tenPow_pos _))) (by decide) (by omega),
    magnitude_eq_nearest (Nat.ne_of_gt hc) hlarge (by omega), hscale, Int.neg_zero,
    Int.toNat_zero, hone, Nat.mul_one]

/-- Written out in full, a decimal denotes what it does, unless that is infinite. -/
theorem magnitude_decimal_numeral {d : Decimal} (h : d.magnitude < infinite) :
    d.numeral.decimal.magnitude = d.magnitude := by
  rw [numeral]
  split_ifs with he
  · have hdecimal : Numeral.decimal ⟨d.digits ++ List.replicate d.exponent.toNat '0', none, none⟩ =
        ⟨d.coefficient * tenPow d.exponent.toNat, 0⟩ := by
      simp [Numeral.decimal, Numeral.mantissa, digits, Nat.ofDigitChars_append, tenPow,
        Nat.mul_comm]
    rw [hdecimal]
    exact magnitude_mul_tenPow he h
  · have hlt := d.lt_length_paddedDigits
    have hdecimal :
        Numeral.decimal ⟨d.paddedDigits.take d.wholeLength,
          some (d.paddedDigits.drop d.wholeLength), none⟩ = d := by
      have hcoefficient : Nat.ofDigitChars 10 d.paddedDigits 0 = d.coefficient := by
        simp [paddedDigits, digits, Nat.ofDigitChars_append]
      have hexponent : (d.paddedDigits.length - d.wholeLength : Nat) = (-d.exponent).toNat := by
        rw [wholeLength]
        omega
      simp only [Numeral.decimal, Numeral.mantissa, Option.getD_some, Option.elim_none,
        List.take_append_drop, hcoefficient, List.length_drop, hexponent]
      rw [Int.toNat_of_nonneg (by omega), Int.zero_sub, Int.neg_neg]
    rw [hdecimal]

end Decimal

/-! ## The text of a double -/

/-- The text of a finite double is a literal behind its sign, of the same magnitude and
    without an exponent. -/
theorem exists_display_eq_sign_append {x : Float} (hx : magnitude x < infinite) :
    ∃ n : Numeral, (display x).toList = (signText x).toList ++ n.text ∧ n.IsLiteral ∧
      n.exponent = none ∧ n.decimal.magnitude = magnitude x := by
  have hshortest := magnitude_shortest .up hx
  refine ⟨(shortest .up (magnitude x)).numeral, ?_, Decimal.isLiteral_numeral _,
    Decimal.exponent_numeral _, ?_⟩
  · rw [display, if_neg (Nat.not_lt.2 (Nat.le_of_lt hx)), if_neg (Nat.ne_of_lt hx),
      String.toList_append, String.toList_ofList, Decimal.text_numeral]
  · rw [Decimal.magnitude_decimal_numeral (by rw [hshortest]; exact hx), hshortest]

/-- The text of a finite double without a sign is a literal of that double, without an
    exponent. -/
theorem exists_display_eq {x : Float} (hx : IsUnsigned x) :
    ∃ n : Numeral, (display x).toList = n.text ∧ n.IsLiteral ∧ n.exponent = none ∧
      n.IsFinite ∧ n.double = x := by
  obtain ⟨n, htext, hn, hexponent, hmagnitude⟩ := exists_display_eq_sign_append hx.finite
  refine ⟨n, ?_, hn, hexponent, ?_, ?_⟩
  · have hsign : signText x = "" := by
      rw [signText, hx.positive]
      rfl
    rw [htext, hsign]
    rfl
  · rw [Numeral.IsFinite, hmagnitude]
    exact hx.finite
  · rw [Numeral.double, hmagnitude]
    exact ofMagnitude_magnitude hx

end Derivatives.Number
