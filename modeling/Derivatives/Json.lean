import Derivatives.Number.Display

/-!
# JSON texts

Values of the JSON data format and the compact text of a value
(`Json.characters`): no blanks, members in the order given. Of the characters of
a string those below U+0020, the quotation mark and the backslash are escaped,
all others stand for themselves.

A number is written with the fewest digits that read back to the same double, a
half way going to the even digit. It always shows that it is a double, by a
point or an exponent; an exponent is used where the leading digit is more than
five places behind the point or more than sixteen before it. What has no digits
is written as `null`.
-/

namespace Derivatives

/-- A JSON value. -/
inductive Json
  /-- The value `null`. -/
  | null
  /-- A number. -/
  | number (value : Float)
  /-- A string. -/
  | string (text : String)
  /-- A sequence of values. -/
  | array (items : List Json)
  /-- A sequence of named values. -/
  | object (members : List (String × Json))

namespace Json

/-- How a character of a string is written. -/
def escape (c : Char) : List Char :=
  if c = '"' then ['\\', '"']
  else if c = '\\' then ['\\', '\\']
  else if c = '\x08' then ['\\', 'b']
  else if c = '\t' then ['\\', 't']
  else if c = '\n' then ['\\', 'n']
  else if c = '\x0c' then ['\\', 'f']
  else if c = '\r' then ['\\', 'r']
  else if c.toNat < 32 then
    ['\\', 'u', '0', '0', Nat.digitChar (c.toNat / 16), Nat.digitChar (c.toNat % 16)]
  else [c]

/-- A string in quotation marks. -/
def quote (text : String) : List Char := '"' :: text.toList.flatMap escape ++ ['"']

/-- A decimal that shows that it is a double. -/
def decimalText (d : Number.Decimal) : List Char :=
  if -5 ≤ d.leading ∧ d.leading ≤ 15 then
    if 0 ≤ d.exponent then d.positional ++ ['.', '0'] else d.positional
  else d.scientific

/-- A double as a number, or `null` if it has no digits. -/
def numberText (x : Float) : List Char :=
  let b := Number.magnitude x
  if Number.infinite ≤ b then "null".toList
  else (Number.signText x).toList ++ decimalText (Number.shortest .toEven b)

mutual

/-- The text of a value. -/
def characters : Json → List Char
  | null => "null".toList
  | number value => numberText value
  | string text => quote text
  | array items => '[' :: itemsText items ++ [']']
  | object members => '\x7b' :: membersText members ++ ['\x7d']

/-- The texts of values, separated by commas. -/
def itemsText : List Json → List Char
  | [] => []
  | [item] => item.characters
  | item :: items => item.characters ++ ',' :: itemsText items

/-- The texts of named values, separated by commas. -/
def membersText : List (String × Json) → List Char
  | [] => []
  | [(name, value)] => quote name ++ ':' :: value.characters
  | (name, value) :: members =>
    quote name ++ ':' :: value.characters ++ ',' :: membersText members

end

/-- The text of a value. -/
def render (json : Json) : String := String.ofList json.characters

end Json

end Derivatives
