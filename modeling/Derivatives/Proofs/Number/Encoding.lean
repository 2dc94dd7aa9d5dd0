import Derivatives.Number.Encoding

/-!
# Doubles and their bits

A finite double is what its bits stand for (`ofBits_toBits`), and bits of a finite
magnitude are those of the double they stand for (`toBits_ofBits`). Both say that
the parts of such bits, taken apart and put together again, are the same bits
(`pack_unpack`).

So the doubles that are finite and have no sign (`IsUnsigned`) are just those of the
finite magnitudes (`ofMagnitude_magnitude`, `isUnsigned_ofMagnitude`).
-/

namespace Derivatives.Number

open Float.Model Float.Model.UnpackedFloat

/-! ## The parts of bits -/

section Parts

variable {bits : BitVec Format.binary64.numBits} {sign : Sign} {exponent : BitVec 11}
  {mantissa : BitVec 52}

theorem toNat_unpackExponent :
    (@unpackExponent Format.binary64 bits).toNat = bits.toNat / binade % 2048 := by
  simp [unpackExponent, Nat.shiftRight_eq_div_pow, binade]

/-- The exponent of a magnitude that is not finite is the largest one. -/
theorem unpackExponent_eq_iff :
    @unpackExponent Format.binary64 bits = -1#_ ↔ infinite ≤ bits.toNat % signBit := by
  have hones : (-1#11).toNat = 2047 := rfl
  have heq : @unpackExponent Format.binary64 bits = -1#_ ↔
      (@unpackExponent Format.binary64 bits).toNat = 2047 :=
    ⟨fun h => h ▸ hones, fun h => BitVec.eq_of_toNat_eq (h.trans hones.symm)⟩
  rw [heq, toNat_unpackExponent]
  unfold signBit infinite binade
  omega

theorem unpackExponent_ne (h : bits.toNat % signBit < infinite) :
    @unpackExponent Format.binary64 bits ≠ -1#_ :=
  mt unpackExponent_eq_iff.1 (Nat.not_le.2 h)

theorem toBitVec_ofBitVec (sign : BitVec 1) : (Sign.ofBitVec sign).toBitVec = sign := by
  revert sign
  decide

/-- Bits are made of their sign, their exponent and their mantissa. -/
theorem packComponents_unpack :
    packComponents Format.binary64 (Sign.ofBitVec (unpackSign bits)) (unpackExponent bits)
      (unpackMantissa bits) = bits := by
  change (Sign.ofBitVec (bits.extractLsb' 63 1)).toBitVec ++ bits.extractLsb' 52 11 ++
    bits.extractLsb' 0 52 = bits
  rw [toBitVec_ofBitVec,
    BitVec.extractLsb'_append_extractLsb'_eq_extractLsb' (show 63 = 52 + 11 from rfl),
    BitVec.extractLsb'_append_extractLsb'_eq_extractLsb' (show 52 = 0 + 52 from rfl)]
  exact BitVec.extractLsb'_eq_self

theorem toNat_leadingBit_append : (1#1 ++ mantissa).toNat = binade + mantissa.toNat := by
  rw [BitVec.toNat_append, ← Nat.shiftLeft_add_eq_or_of_lt mantissa.isLt]
  rfl

/-- How the parts of a finite double come about. -/
theorem pack_finite {m : Nat} {e : Int} {hm : 0 < m} :
    pack Format.binary64 (.finite sign m e hm) =
      if 2048 ≤ (e + (1023 : Nat) + (52 : Nat)).toNat + 1 then packedInfinity Format.binary64 sign
      else if m.log2 + 1 = 53 then
        packComponents Format.binary64 sign (.ofNat 11 (e + (1023 : Nat) + (52 : Nat)).toNat)
          (.ofNat 52 m)
      else packComponents Format.binary64 sign 0#11 (.ofNat 52 m) :=
  rfl

/-- Below the first binade, the exponent of the parts is zero. -/
theorem pack_subnormal {e : Int} (he : e = -1074) (hpos : 0 < mantissa.toNat) :
    pack Format.binary64 (.finite sign mantissa.toNat e hpos) =
      packComponents Format.binary64 sign 0#11 mantissa := by
  have hlog : mantissa.toNat.log2 < 52 := (Nat.log2_lt (Nat.ne_of_gt hpos)).2 mantissa.isLt
  rw [pack_finite, if_neg (by omega), if_neg (by omega), BitVec.ofNat_toNat, BitVec.setWidth_eq]

/-- Above it, a mantissa has a leading bit, which is not among the parts. -/
theorem pack_normal {e : Int} (he : e = exponent.toNat - 1075) (hlt : exponent.toNat < 2047)
    (hpos : 0 < (1#1 ++ mantissa).toNat) :
    pack Format.binary64 (.finite sign (1#1 ++ mantissa).toNat e hpos) =
      packComponents Format.binary64 sign exponent mantissa := by
  have hmantissa := mantissa.isLt
  have hlog : (1#1 ++ mantissa).toNat.log2 = 52 := by
    rw [toNat_leadingBit_append, binade, Nat.log2_eq_iff (by omega)]
    omega
  have hexponent : (e + (1023 : Nat) + (52 : Nat)).toNat = exponent.toNat := by omega
  have hlow : BitVec.ofNat 52 (1#1 ++ mantissa).toNat = mantissa := by
    apply BitVec.eq_of_toNat_eq
    rw [toNat_leadingBit_append, binade, BitVec.toNat_ofNat]
    omega
  rw [pack_finite, hexponent, if_neg (by omega), if_pos (by rw [hlog]), hlow, BitVec.ofNat_toNat,
    BitVec.setWidth_eq]

theorem isFinite_unpack_of_eq (h : @unpackExponent Format.binary64 bits = -1#_) :
    (UnpackedFloat.unpack Format.binary64 bits).isFinite = false := by
  refine (congrArg _ (if_pos h)).trans ?_
  by_cases hmantissa : @unpackMantissa Format.binary64 bits = 0#52
  · exact congrArg _ (if_pos hmantissa)
  · exact congrArg _ (if_neg hmantissa)

theorem isFinite_unpack_of_ne (h : @unpackExponent Format.binary64 bits ≠ -1#_) :
    (UnpackedFloat.unpack Format.binary64 bits).isFinite := by
  refine (congrArg _ (if_neg h)).trans ?_
  by_cases hexponent : @unpackExponent Format.binary64 bits = 0#11
  · refine (congrArg _ (if_pos hexponent)).trans ?_
    by_cases hmantissa : @unpackMantissa Format.binary64 bits = 0#52
    · exact congrArg _ (dif_pos hmantissa)
    · exact congrArg _ (dif_neg hmantissa)
  · exact congrArg _ (if_neg hexponent)

/-- Bits of a finite magnitude, taken apart and put together again, are the same bits. -/
theorem pack_unpack (h : bits.toNat % signBit < infinite) :
    pack Format.binary64 (UnpackedFloat.unpack Format.binary64 bits) = bits := by
  have hne := unpackExponent_ne h
  have hlt : (@unpackExponent Format.binary64 bits).toNat < 2047 := by
    rw [toNat_unpackExponent]
    unfold signBit infinite binade at *
    omega
  refine ((congrArg _ (if_neg hne)).trans ?_).trans packComponents_unpack
  by_cases hexponent : @unpackExponent Format.binary64 bits = 0#11
  · refine (congrArg _ (if_pos hexponent)).trans ?_
    rw [hexponent]
    by_cases hmantissa : @unpackMantissa Format.binary64 bits = 0#52
    · refine (congrArg _ (dif_pos hmantissa)).trans ?_
      rw [hmantissa]
      rfl
    · exact (congrArg _ (dif_neg hmantissa)).trans (pack_subnormal rfl _)
  · exact (congrArg _ (if_neg hexponent)).trans (pack_normal rfl hlt _)

end Parts

/-! ## Finite doubles -/

/-- The finite doubles are those of the magnitudes below that of infinity. -/
theorem isFinite_iff {x : Float} : x.isFinite ↔ magnitude x < infinite := by
  obtain ⟨⟨bits, hvalid⟩⟩ := x
  have hiff : (UnpackedFloat.unpack Format.binary64 bits.toBitVec).isFinite ↔
      @unpackExponent Format.binary64 bits.toBitVec ≠ -1#_ :=
    ⟨fun h hexponent => Bool.false_ne_true ((isFinite_unpack_of_eq hexponent).symm.trans h),
      isFinite_unpack_of_ne⟩
  exact hiff.trans ((not_congr unpackExponent_eq_iff).trans Nat.not_le)

/-- A finite double is what its bits stand for. -/
theorem ofBits_toBits {x : Float} (hx : magnitude x < infinite) : Float.ofBits x.toBits = x := by
  obtain ⟨⟨bits, hvalid⟩⟩ := x
  have hbits : UnpackedFloat.pack Format.binary64
      (UnpackedFloat.unpack Format.binary64 bits.toBitVec) = bits.toBitVec := pack_unpack hx
  rw [Float.ofBits, Float.ofModel.injEq, Float.Model.ofBits, Float.Model.pack, Float.Model.mk.injEq]
  exact congrArg UInt64.ofBitVec hbits

/-- Bits of a finite magnitude are those of the double they stand for. -/
theorem toBits_ofBits {bits : UInt64} (h : bits.toNat % signBit < infinite) :
    (Float.ofBits bits).toBits = bits :=
  congrArg UInt64.ofBitVec (pack_unpack h)

/-- A finite double the sign bit of which is clear: it is written without a sign. -/
structure IsUnsigned (x : Float) : Prop where
  finite : magnitude x < infinite
  positive : isNegative x = false

instance : DecidablePred IsUnsigned := fun x =>
  decidable_of_iff (magnitude x < infinite ∧ isNegative x = false)
    ⟨fun h => ⟨h.1, h.2⟩, fun h => ⟨h.finite, h.positive⟩⟩

/-- A finite double is that of its sign and its magnitude. -/
theorem ofMagnitude_isNegative {x : Float} (hx : magnitude x < infinite) :
    ofMagnitude (isNegative x) (magnitude x) = x := by
  have hlt : x.toBits.toNat < 18446744073709551616 := x.toBits.toNat_lt
  have hbits : (if isNegative x then magnitude x + signBit else magnitude x) = x.toBits.toNat := by
    cases hsign : isNegative x with
    | false =>
      rw [isNegative, decide_eq_false_iff_not, Nat.not_le] at hsign
      exact Nat.mod_eq_of_lt hsign
    | true =>
      rw [isNegative, decide_eq_true_iff] at hsign
      rw [if_pos rfl, magnitude]
      unfold signBit at *
      omega
  rw [ofMagnitude, hbits, UInt64.ofNat_toNat]
  exact ofBits_toBits hx

/-- A double without a sign is that of its magnitude. -/
theorem ofMagnitude_magnitude {x : Float} (hx : IsUnsigned x) :
    ofMagnitude false (magnitude x) = x := by
  rw [← hx.positive, ofMagnitude_isNegative hx.finite]

section OfMagnitude

variable {b : Nat} (hb : b < infinite)
include hb

theorem toNat_toBits_ofMagnitude : (ofMagnitude false b).toBits.toNat = b := by
  have hbits : (UInt64.ofNat b).toNat = b := by
    rw [UInt64.toNat_ofNat', Nat.mod_eq_of_lt]
    unfold infinite binade at hb
    omega
  rw [ofMagnitude, if_neg Bool.false_ne_true, toBits_ofBits, hbits]
  rw [hbits]
  unfold signBit infinite binade at *
  omega

/-- The double of a finite magnitude has no sign. -/
theorem isUnsigned_ofMagnitude : IsUnsigned (ofMagnitude false b) := by
  have hlt : b < signBit := Nat.lt_trans hb (by decide)
  constructor
  · rw [magnitude, toNat_toBits_ofMagnitude hb, Nat.mod_eq_of_lt hlt]
    exact hb
  · rw [isNegative, toNat_toBits_ofMagnitude hb]
    exact decide_eq_false (Nat.not_le.2 hlt)

end OfMagnitude

end Derivatives.Number
