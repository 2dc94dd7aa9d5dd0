import Derivatives.Error
import Derivatives.Number.Decimal

/-!
# Numerals

A numeral is the text of an unsigned number: digits, a point with digits after
it, and an exponent. `Numeral.scan` takes the longest numeral a text starts
with; an exponent belongs to it only if it has a digit. The pieces are kept as
they were written, so that a numeral has its text back (`Numeral.text`,
`Numeral.text_scan`).

The value of a numeral is the double nearest to the decimal it denotes
(`Numeral.value`). A numeral without a digit before its exponent has none, and
one whose nearest double is infinite is out of range.
-/

namespace Derivatives.Number

/-- The exponent part of a numeral. -/
structure Exponent where
  /-- The letter it starts with, `e` or `E`. -/
  mark : Char
  /-- Its sign, if one is written. -/
  sign : Option Char
  /-- Its digits. -/
  digits : List Char
  deriving DecidableEq, Repr

namespace Exponent

/-- The text of an exponent. -/
def text (e : Exponent) : List Char := e.mark :: e.sign.toList ++ e.digits

/-- The power of ten of an exponent. -/
def value (e : Exponent) : Int :=
  let n : Int := Nat.ofDigitChars 10 e.digits 0
  if e.sign = some '-' then -n else n

end Exponent

/-- An unsigned number, as it is written. -/
structure Numeral where
  /-- The digits before the point. -/
  whole : List Char
  /-- The digits after the point, if there is one. -/
  fraction : Option (List Char)
  /-- The exponent, if there is one. -/
  exponent : Option Exponent
  deriving DecidableEq, Repr

namespace Numeral

/-- The point and the digits after it, at the start of a text, and the rest. -/
def scanFraction : List Char → Option (List Char) × List Char
  | '.' :: cs => (some (cs.takeWhile Char.isDigit), cs.dropWhile Char.isDigit)
  | cs => (none, cs)

/-- The sign at the start of a text, and the rest. -/
def scanSign : List Char → Option Char × List Char
  | '+' :: cs => (some '+', cs)
  | '-' :: cs => (some '-', cs)
  | cs => (none, cs)

/-- Whether a character introduces an exponent. -/
def isMark (c : Char) : Bool := c = 'e' || c = 'E'

/-- The exponent at the start of a text, and the rest: nothing is taken if no
    digit follows the letter and the sign. -/
def scanExponent : List Char → Option Exponent × List Char
  | [] => (none, [])
  | c :: cs =>
    let (sign, ds) := scanSign cs
    if isMark c && !(ds.takeWhile Char.isDigit).isEmpty then
      (some ⟨c, sign, ds.takeWhile Char.isDigit⟩, ds.dropWhile Char.isDigit)
    else (none, c :: cs)

/-- The longest numeral a text starts with (it may be empty), and the rest. -/
def scan (cs : List Char) : Numeral × List Char :=
  let (fraction, rest) := scanFraction (cs.dropWhile Char.isDigit)
  let (exponent, rest) := scanExponent rest
  (⟨cs.takeWhile Char.isDigit, fraction, exponent⟩, rest)

/-- The digits before the exponent. -/
def mantissa (n : Numeral) : List Char := n.whole ++ n.fraction.getD []

/-- The text of a numeral. -/
def text (n : Numeral) : List Char :=
  n.whole ++ (n.fraction.elim [] ('.' :: ·)) ++ (n.exponent.elim [] Exponent.text)

/-- The decimal a numeral denotes. -/
def decimal (n : Numeral) : Decimal where
  coefficient := Nat.ofDigitChars 10 n.mantissa 0
  exponent := n.exponent.elim 0 Exponent.value - (n.fraction.getD []).length

/-- The double a numeral denotes. -/
def value (n : Numeral) : Except Error Float :=
  if n.mantissa.isEmpty then .error (.invalidNumber (String.ofList n.text))
  else
    let b := n.decimal.magnitude
    if b = infinite then .error (.numberOutOfRange (String.ofList n.text))
    else .ok (ofMagnitude false b)

/-! ## Scanning takes a text apart -/

theorem scanFraction_append (cs : List Char) :
    (scanFraction cs).1.elim [] ('.' :: ·) ++ (scanFraction cs).2 = cs := by
  unfold scanFraction
  split <;> simp

theorem scanSign_append (cs : List Char) : (scanSign cs).1.toList ++ (scanSign cs).2 = cs := by
  unfold scanSign
  split <;> simp

theorem scanExponent_append (cs : List Char) :
    (scanExponent cs).1.elim [] Exponent.text ++ (scanExponent cs).2 = cs := by
  cases cs with
  | nil => rfl
  | cons c cs =>
    simp only [scanExponent]
    split
    · simpa [Exponent.text] using scanSign_append cs
    · rfl

/-- A numeral and the rest make up the text they were scanned from. -/
theorem text_scan (cs : List Char) : (scan cs).1.text ++ (scan cs).2 = cs := by
  simp only [scan, text, List.append_assoc, scanExponent_append, scanFraction_append,
    List.takeWhile_append_dropWhile]

theorem length_scan (cs : List Char) :
    (scan cs).1.text.length + (scan cs).2.length = cs.length := by
  rw [← List.length_append, text_scan]

/-- A text that starts with a digit starts with a numeral that is not empty. -/
theorem length_text_scan_pos {c : Char} (cs : List Char) (hc : c.isDigit) :
    0 < (scan (c :: cs)).1.text.length := by
  simp only [scan, text, List.takeWhile_cons_of_pos hc, List.length_append, List.length_cons]
  omega

end Numeral

end Derivatives.Number
