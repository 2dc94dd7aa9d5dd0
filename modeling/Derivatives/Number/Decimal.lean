import Derivatives.Number.Encoding

/-!
# Decimals

A decimal is a natural coefficient times a power of ten. Two questions tie
decimals to doubles:

* which double a decimal denotes (`Decimal.magnitude`): the nearest one, ties
  going to the even neighbour;
* which decimal stands for a double (`shortest`): among the decimals that
  denote it, one with the fewest digits, and of two such neighbours the nearer
  one. Which of two equally near ones is taken is a matter of the output format
  (`Tie`).

A decimal is written out either in full (`Decimal.positional`) or as one digit
before the point and a power of ten (`Decimal.scientific`).
-/

namespace Derivatives.Number

/-- The powers of ten. -/
def tenPow (n : Nat) : Nat := Nat.pow 10 n

/-- The decimal of the given digits and power of ten. -/
structure Decimal where
  /-- The digits, as one number. -/
  coefficient : Nat
  /-- The power of ten they are scaled by. -/
  exponent : Int
  deriving DecidableEq, Repr

namespace Decimal

/-- The magnitude of the double nearest to a decimal. A decimal far beyond the
    range of doubles is settled by its exponent alone, so that no huge power of
    ten is ever computed. -/
def magnitude (d : Decimal) : Nat :=
  if d.coefficient = 0 then 0
  else if 400 < d.exponent then infinite
  else if d.exponent + d.coefficient.log2 < -400 then 0
  else
    nearest ((d.coefficient * tenPow d.exponent.toNat) <<< unitScale) (tenPow (-d.exponent).toNat)

/-- The same decimal without trailing zeros in its coefficient. -/
def trim (d : Decimal) : Decimal :=
  if h : d.coefficient ≠ 0 ∧ d.coefficient % 10 = 0 then
    trim ⟨d.coefficient / 10, d.exponent + 1⟩
  else d
termination_by d.coefficient
decreasing_by exact Nat.div_lt_self (Nat.pos_of_ne_zero h.1) (by decide)

/-- The digits of the coefficient. -/
def digits (d : Decimal) : List Char := Nat.toDigits 10 d.coefficient

/-- The exponent of the leading digit. -/
def leading (d : Decimal) : Int := d.exponent + d.digits.length - 1

/-- A decimal written out in full: a point only if there are digits after it,
    and at least one digit before it. -/
def positional (d : Decimal) : List Char :=
  if 0 ≤ d.exponent then d.digits ++ List.replicate d.exponent.toNat '0'
  else
    let places := (-d.exponent).toNat
    let padded := List.replicate (places + 1 - d.digits.length) '0' ++ d.digits
    padded.take (padded.length - places) ++ '.' :: padded.drop (padded.length - places)

/-- A decimal written with one digit before the point, and the exponent of that
    digit with its sign: `1.25e+20`, `5e-324`. -/
def scientific (d : Decimal) : List Char :=
  let fraction := match d.digits.drop 1 with
    | [] => []
    | places => '.' :: places
  let sign := if d.leading < 0 then '-' else '+'
  d.digits.take 1 ++ fraction ++ 'e' :: sign :: Nat.toDigits 10 d.leading.natAbs

end Decimal

/-! ## The shortest decimal of a double -/

/-- Which of two equally near decimals is taken. -/
inductive Tie
  /-- The larger one. -/
  | up
  /-- The one with the even coefficient. -/
  | toEven
  deriving DecidableEq, Repr

/-- The exponent of the leading decimal digit of `u` units, for positive `u`. -/
def leadingExponent (u : Nat) : Int :=
  let one := 1 <<< unitScale
  if one ≤ u then (Nat.toDigits 10 (u / one)).length - 1
  else -(Nat.toDigits 10 ((one - 1) / u)).length

/-- The two neighbours of `u` units among the decimals of exponent `s`, the nearer
    one first. -/
def neighbours (tie : Tie) (u : Nat) (s : Int) : List Decimal :=
  let n := u * tenPow (-s).toNat
  let d := tenPow s.toNat <<< unitScale
  let below : Decimal := ⟨n / d, s⟩
  let above : Decimal := ⟨n / d + 1, s⟩
  let belowFirst := match compare (2 * (n % d)) d, tie with
    | .lt, _ => true
    | .gt, _ => false
    | .eq, .up => false
    | .eq, .toEven => n / d % 2 = 0
  if belowFirst then [below, above] else [above, below]

/-- The decimal of all digits of `u` units. -/
def exactDecimal (u : Nat) : Decimal := ⟨u * Nat.pow 5 unitScale, -unitScale⟩

/-- The shortest decimal denoting the double of magnitude `b`: the first found
    on the grids of one, two, … digits, of two on one grid the nearer one. -/
def shortest (tie : Tie) (b : Nat) : Decimal :=
  let u := units b
  if u = 0 then ⟨0, 0⟩
  else
    let found := (List.range 17).findSome? fun (n : Nat) =>
      ((neighbours tie u (leadingExponent u - n)).map Decimal.trim).find? (·.magnitude = b)
    found.getD (exactDecimal u)

end Derivatives.Number
