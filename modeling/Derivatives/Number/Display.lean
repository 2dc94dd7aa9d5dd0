import Derivatives.Number.Numeral

/-!
# Numbers as text

How a double is written for the user (`display`) and how one is read
(`read?`). What is written is the shortest decimal that reads back to the same
double, in full, never with an exponent; a half way goes up. What is read is a
numeral with an optional sign, or one of the words for the values that have no
digits.
-/

namespace Derivatives.Number

/-- The minus sign of a negative number. -/
def signText (x : Float) : String := if isNegative x then "-" else ""

/-- A double for the user: `3`, `0.1`, `-0`, `inf`, `NaN`. -/
def display (x : Float) : String :=
  let b := magnitude x
  if infinite < b then "NaN"
  else if b = infinite then signText x ++ "inf"
  else signText x ++ String.ofList (shortest .up b).positional

/-- The words for what has no digits, in lower case, and the magnitudes they
    stand for. -/
def wordMagnitude? (word : List Char) : Option Nat :=
  if word = "inf".toList ∨ word = "infinity".toList then some infinite
  else if word = "nan".toList then some (magnitude nan)
  else none

/-- The magnitude of an unsigned text. -/
def readMagnitude? (cs : List Char) : Option Nat :=
  (wordMagnitude? (cs.map Char.toLower)).or <|
    let (numeral, rest) := Numeral.scan cs
    if rest.isEmpty && !numeral.mantissa.isEmpty then some numeral.decimal.magnitude else none

/-- The double nearest to the number a text consists of. -/
def read? (text : String) : Option Float :=
  let (sign, cs) := Numeral.scanSign text.toList
  (readMagnitude? cs).map (ofMagnitude (sign = some '-'))

end Derivatives.Number
