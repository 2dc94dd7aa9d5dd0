import Derivatives.Proofs.Json.Reading
import Derivatives.Proofs.Number.Display

/-!
# Numbers read back

The text of a decimal is a numeral in each of its three forms (`Decimal.doubleNumeral`): in full,
with a zero behind the point if there is nothing else behind it, or with an exponent. It denotes
what the decimal does (`Decimal.magnitude_doubleNumeral`), and is as numbers are written, as no
digits of a number start with a zero (`isNumber_doubleNumeral`). So the text of a finite double,
where it ends, is read as that double (`scanNumber?_numberText_append`).
-/

namespace Derivatives

namespace Number

/-! ## Digits -/

/-- The digits of a number do not start with a zero. -/
theorem head?_toDigits_ne {n : Nat} (hn : n ≠ 0) : (Nat.toDigits 10 n).head? ≠ some '0' := by
  induction n using Nat.strongRecOn with
  | ind n ih =>
    by_cases hlt : n < 10
    · have hdigit : ∀ m < 10, m ≠ 0 → [Nat.digitChar m].head? ≠ some '0' := by decide
      rw [Nat.toDigits_of_lt_base hlt]
      exact hdigit n hlt hn
    · have hle : 10 ≤ n := Nat.not_lt.1 hlt
      have hpos : 0 < n / 10 := Nat.div_pos hle (by decide)
      rw [Nat.toDigits_of_base_le (by decide) hle,
        List.head?_append_of_ne_nil _ Nat.toDigits_ne_nil]
      exact ih (n / 10) (Nat.div_lt_self (Nat.pos_of_ne_zero hn) (by decide)) (Nat.ne_of_gt hpos)

/-! ## Rounding a quotient that can be reduced -/

theorem roundDiv_mul_mul (n d : Nat) {k : Nat} (hk : 0 < k) :
    roundDiv (n * k) (d * k) = roundDiv n d := by
  have hcompare : compare (2 * (n % d * k)) (d * k) = compare (2 * (n % d)) d := by
    simp only [← Nat.mul_assoc, Nat.compare_eq_ite_lt, Nat.mul_lt_mul_right hk]
  rw [roundDiv, roundDiv, Nat.mul_mod_mul_right, Nat.mul_div_mul_right _ _ hk, hcompare]

theorem nearest_mul_mul (n d : Nat) {k : Nat} (hk : 0 < k) :
    nearest (n * k) (d * k) = nearest n d := by
  have hshift (e : Nat) : (d * k) <<< e = d <<< e * k := by
    rw [Nat.shiftLeft_eq, Nat.shiftLeft_eq, Nat.mul_right_comm]
  simp only [nearest, Nat.mul_div_mul_right _ _ hk, hshift, roundDiv_mul_mul _ _ hk]

/-! ## The numeral of a decimal -/

namespace Decimal

/-- A zero behind the point changes nothing. -/
theorem magnitude_mul_ten (c : Nat) : magnitude ⟨c * 10, -1⟩ = magnitude ⟨c, 0⟩ := by
  rcases Nat.eq_zero_or_pos c with rfl | hc
  · rw [Nat.zero_mul, magnitude_zero, magnitude_zero]
  · have hscale : (c * 10 * 1) <<< unitScale = (c * 1) <<< unitScale * 10 := by
      rw [Nat.shiftLeft_eq, Nat.shiftLeft_eq, Nat.mul_one, Nat.mul_one, Nat.mul_right_comm]
    rw [magnitude_eq_nearest (Nat.ne_of_gt (Nat.mul_pos hc (by decide))) (by decide) (by omega),
      magnitude_eq_nearest (Nat.ne_of_gt hc) (by decide) (by omega)]
    change nearest ((c * 10 * 1) <<< unitScale) (1 * 10) = nearest ((c * 1) <<< unitScale) 1
    rw [hscale, nearest_mul_mul _ _ (by decide)]

/-- A decimal in full, with a zero behind the point if there is nothing else behind it. -/
def pointNumeral (d : Decimal) : Numeral :=
  if 0 ≤ d.exponent then ⟨d.numeral.whole, some ['0'], none⟩ else d.numeral

/-- A decimal with one digit before the point, and an exponent. -/
def scientificNumeral (d : Decimal) : Numeral where
  whole := d.digits.take 1
  fraction := if d.digits.drop 1 = [] then none else some (d.digits.drop 1)
  exponent :=
    some ⟨'e', some (if d.leading < 0 then '-' else '+'), Nat.toDigits 10 d.leading.natAbs⟩

/-- A decimal that shows that it is a double, as a numeral. -/
def doubleNumeral (d : Decimal) : Numeral :=
  if -5 ≤ d.leading ∧ d.leading ≤ 15 then d.pointNumeral else d.scientificNumeral

theorem numeral_of_nonneg {d : Decimal} (h : 0 ≤ d.exponent) :
    d.numeral = ⟨d.digits ++ List.replicate d.exponent.toNat '0', none, none⟩ :=
  if_pos h

theorem text_scientificNumeral (d : Decimal) : d.scientificNumeral.text = d.scientific := by
  rw [Numeral.text, scientificNumeral, scientific]
  cases d.digits.drop 1 with
  | nil => simp [Exponent.text]
  | cons c cs => simp [Exponent.text]

theorem text_doubleNumeral (d : Decimal) : d.doubleNumeral.text = Json.decimalText d := by
  rw [doubleNumeral, Json.decimalText, pointNumeral]
  split_ifs with hleading hexponent
  · rw [← text_numeral, numeral_of_nonneg hexponent]
    simp [Numeral.text]
  · exact text_numeral d
  · exact text_scientificNumeral d

theorem wellFormed_doubleNumeral (d : Decimal) : d.doubleNumeral.WellFormed := by
  have hnumeral := d.isLiteral_numeral.toWellFormed
  rw [doubleNumeral, pointNumeral]
  split_ifs with hleading hexponent
  · refine ⟨hnumeral.whole, fun ds hds c hc => ?_, fun e he => nomatch he⟩
    obtain rfl := Option.some.inj hds
    rw [List.mem_singleton.1 hc]
    rfl
  · exact hnumeral
  · constructor
    · exact fun c hc => isDigit_of_mem_digits (List.mem_of_mem_take hc)
    · intro ds hds c hc
      simp only [scientificNumeral, Option.mem_def, Option.ite_none_left_eq_some,
        Option.some.injEq] at hds
      obtain ⟨-, rfl⟩ := hds
      exact isDigit_of_mem_digits (List.mem_of_mem_drop hc)
    · intro e he
      obtain rfl := Option.some.inj he
      refine ⟨rfl, fun s hs => ?_, fun c hc => ?_, Nat.toDigits_ne_nil⟩
      · obtain rfl := Option.some.inj hs
        split_ifs
        · exact .inr rfl
        · exact .inl rfl
      · exact Nat.isDigit_of_mem_toDigits (by decide) (by decide) hc

theorem length_digits_pos (d : Decimal) : 0 < d.digits.length :=
  List.length_pos_of_ne_nil Nat.toDigits_ne_nil

/-- With an exponent, a decimal is denoted as it is. -/
theorem decimal_scientificNumeral (d : Decimal) : d.scientificNumeral.decimal = d := by
  have hfraction : d.scientificNumeral.fraction.getD [] = d.digits.drop 1 := by
    rw [scientificNumeral]
    by_cases h : d.digits.drop 1 = []
    · rw [if_pos h, h, Option.getD_none]
    · rw [if_neg h, Option.getD_some]
  have hcoefficient : Nat.ofDigitChars 10 d.scientificNumeral.mantissa 0 = d.coefficient := by
    rw [Numeral.mantissa, hfraction, scientificNumeral, List.take_append_drop, digits,
      Nat.ofDigitChars_ten_toDigits]
  have hvalue : d.scientificNumeral.exponent.elim 0 Exponent.value = d.leading := by
    simp only [scientificNumeral, Option.elim_some, Exponent.value, Option.some.injEq,
      Nat.ofDigitChars_ten_toDigits]
    split_ifs with hnegative hsign hsign
    · omega
    · exact absurd rfl hsign
    · exact absurd hsign (by decide)
    · omega
  have hpos := d.length_digits_pos
  rw [Numeral.decimal, hcoefficient, hvalue, hfraction, List.length_drop, leading]
  have hexponent : d.exponent + d.digits.length - 1 - (d.digits.length - 1 : Nat) = d.exponent := by
    omega
  rw [hexponent]

/-- With a zero behind the point, there is one more digit. -/
theorem decimal_pointNumeral {d : Decimal} (h : 0 ≤ d.exponent) :
    ∃ c, d.pointNumeral.decimal = ⟨c * 10, -1⟩ ∧ d.numeral.decimal = ⟨c, 0⟩ := by
  have hmantissa : d.pointNumeral.mantissa = d.numeral.whole ++ ['0'] := by
    rw [pointNumeral, if_pos h]
    rfl
  refine ⟨Nat.ofDigitChars 10 d.numeral.whole 0, ?_, ?_⟩
  · rw [Numeral.decimal, hmantissa, Nat.ofDigitChars_append, Nat.mul_comm, pointNumeral, if_pos h]
    rfl
  · have hwhole : d.numeral.mantissa = d.numeral.whole := by
      rw [Numeral.mantissa, numeral_of_nonneg h]
      exact List.append_nil _
    rw [Numeral.decimal, hwhole, numeral_of_nonneg h]
    rfl

/-- The numeral of a decimal denotes what the decimal does, unless that is infinite. -/
theorem magnitude_doubleNumeral {d : Decimal} (h : d.magnitude < infinite) :
    d.doubleNumeral.decimal.magnitude = d.magnitude := by
  have hnumeral := magnitude_decimal_numeral h
  rw [doubleNumeral]
  split_ifs
  · by_cases hexponent : 0 ≤ d.exponent
    · obtain ⟨c, hpoint, hfull⟩ := decimal_pointNumeral hexponent
      rw [hpoint, magnitude_mul_ten, ← hfull, hnumeral]
    · rw [pointNumeral, if_neg hexponent, hnumeral]
  · rw [decimal_scientificNumeral]

theorem numeral_of_neg {d : Decimal} (h : d.exponent < 0) :
    d.numeral =
      ⟨d.paddedDigits.take d.wholeLength, some (d.paddedDigits.drop d.wholeLength), none⟩ :=
  if_neg (Int.not_le.2 h)

/-- What is in front of the point of a decimal in full starts with a zero only if it is one. -/
theorem whole_numeral {d : Decimal} (h : d.coefficient = 0 → d.exponent = 0)
    (hhead : d.numeral.whole.head? = some '0') : d.numeral.whole = ['0'] := by
  by_cases hexponent : 0 ≤ d.exponent
  · rw [numeral_of_nonneg hexponent] at hhead ⊢
    dsimp only at hhead
    by_cases hcoefficient : d.coefficient = 0
    · rw [h hcoefficient, digits, hcoefficient]
      rfl
    · have hnil : d.digits ≠ [] := Nat.toDigits_ne_nil
      rw [List.head?_append_of_ne_nil _ hnil] at hhead
      exact absurd hhead (head?_toDigits_ne hcoefficient)
  · rw [numeral_of_neg (Int.not_le.1 hexponent)] at hhead ⊢
    rcases Nat.lt_or_ge (-d.exponent).toNat d.digits.length with hlt | hge
    · -- There are digits in front of the point.
      have hpadded : d.paddedDigits = d.digits := by
        rw [paddedDigits, Nat.sub_eq_zero_of_le hlt]
        rfl
      have hcoefficient : d.coefficient ≠ 0 := fun hzero => hexponent (Int.le_of_eq (h hzero).symm)
      rw [hpadded, List.head?_take] at hhead
      split_ifs at hhead
      exact absurd hhead (head?_toDigits_ne hcoefficient)
    · -- There are none, so that there is a zero.
      have hpad : (-d.exponent).toNat + 1 - d.digits.length =
          (-d.exponent).toNat - d.digits.length + 1 := by omega
      have hlength : d.wholeLength = 1 := by
        rw [wholeLength, paddedDigits, List.length_append, List.length_replicate]
        omega
      rw [hlength, paddedDigits, hpad, List.replicate_succ]
      rfl

/-- The numeral of a decimal is as numbers are written, unless it is a zero with an exponent. -/
theorem isNumber_doubleNumeral {d : Decimal} (h : d.coefficient = 0 → d.exponent = 0) :
    Json.IsNumber d.doubleNumeral := by
  have hwhole := d.isLiteral_numeral.whole_ne_nil
  rw [doubleNumeral, pointNumeral]
  split_ifs with hleading hexponent
  · exact ⟨hwhole, whole_numeral h, by simp⟩
  · refine ⟨hwhole, whole_numeral h, ?_⟩
    have hlt := d.lt_length_paddedDigits
    rw [numeral_of_neg (Int.not_le.1 hexponent), ne_eq, Option.some.injEq, List.drop_eq_nil_iff,
      wholeLength]
    omega
  · obtain ⟨c, cs, hdigits⟩ := List.exists_cons_of_length_pos d.length_digits_pos
    rw [scientificNumeral, hdigits]
    refine ⟨List.cons_ne_nil _ _, fun hhead => congrArg (· :: []) (Option.some.inj hhead), ?_⟩
    by_cases hrest : (c :: cs).drop 1 = []
    · rw [if_pos hrest]
      exact (Option.some_ne_none []).symm
    · rw [if_neg hrest]
      exact fun hfraction => hrest (Option.some.inj hfraction)

end Decimal

/-! ## The shortest decimal of a double -/

/-- Only zero has a zero as its decimal. -/
theorem exponent_shortest {tie : Tie} {b : Nat} (hb : b < infinite)
    (h : (shortest tie b).coefficient = 0) : (shortest tie b).exponent = 0 := by
  have hmagnitude := magnitude_shortest tie hb
  rw [Decimal.magnitude, if_pos h] at hmagnitude
  rw [← hmagnitude]
  rfl

end Number

namespace Json

open Number (Numeral Decimal magnitude infinite)

variable {x : Float} {rest : List Char}

/-- The numeral of a finite double, without its sign. -/
theorem exists_numberText_eq (hx : magnitude x < infinite) :
    ∃ n : Numeral, numberText x = (Number.signText x).toList ++ n.text ∧ n.WellFormed ∧
      IsNumber n ∧ n.decimal.magnitude = magnitude x := by
  have hshortest := Number.magnitude_shortest .toEven hx
  refine ⟨(Number.shortest .toEven (magnitude x)).doubleNumeral, ?_,
    Decimal.wellFormed_doubleNumeral _,
    Decimal.isNumber_doubleNumeral (Number.exponent_shortest hx), ?_⟩
  · simp only [numberText, if_neg (Nat.not_le.2 hx), Decimal.text_doubleNumeral]
  · rw [Decimal.magnitude_doubleNumeral (by rw [hshortest]; exact hx), hshortest]

theorem scanMinus_of_isDigit {c : Char} (hc : c.isDigit) (cs : List Char) :
    scanMinus (c :: cs) = (false, c :: cs) := by
  unfold scanMinus
  split
  · next heq =>
    obtain ⟨rfl, -⟩ := List.cons.inj heq
    exact absurd hc (by decide)
  · rfl

/-- The text of a finite double is read as that double, where nothing goes on with it. -/
theorem scanNumber?_numberText_append (hx : magnitude x < infinite) (hrest : Numeral.Stops rest) :
    scanNumber? (numberText x ++ rest) = some (x, rest) := by
  obtain ⟨n, htext, hn, hnumber, hmagnitude⟩ := exists_numberText_eq hx
  have hminus : scanMinus (numberText x ++ rest) = (Number.isNegative x, n.text ++ rest) := by
    rw [htext, Number.signText]
    cases Number.isNegative x with
    | true => rfl
    | false =>
      obtain ⟨c, cs, hcons, hc⟩ := Numeral.IsLiteral.exists_text_eq_cons ⟨hn, hnumber.1⟩
      rw [hcons]
      exact scanMinus_of_isDigit hc _
  have hfinite : n.IsFinite := by
    rw [Numeral.IsFinite, hmagnitude]
    exact hx
  simp only [scanNumber?, hminus, Numeral.scan_text_append hn hrest,
    if_pos (And.intro hnumber hfinite), hmagnitude, Number.ofMagnitude_isNegative hx]

/-- What has no digits is written as `null`. -/
theorem numberText_of_infinite_le (hx : infinite ≤ magnitude x) : numberText x = "null".toList := by
  simp only [numberText, if_pos hx]

end Json

end Derivatives
