import Derivatives.Cursor
import Derivatives.Operator

/-!
# Tokens

A line is a sequence of tokens with blanks between them. A numeral is one token,
as long as possible, and every other character is one by itself; a character
that means nothing in an expression is a token too, so that any line has tokens
(`lexemes`). Each comes with the stretch of the line it was read from
(`Lexeme`).
-/

namespace Derivatives

/-- A unit of the text of an expression. -/
inductive Token
  /-- A number. -/
  | numeral (n : Number.Numeral)
  /-- The variable, `x` or `X`. -/
  | var
  /-- An operator. -/
  | operator (op : Operator)
  /-- An opening parenthesis. -/
  | leftParenthesis
  /-- A closing parenthesis. -/
  | rightParenthesis
  /-- A character that has no place in an expression. -/
  | other (c : Char)
  deriving DecidableEq, Repr

/-- The token a single character makes. -/
def Token.ofChar : Char → Token
  | 'x' | 'X' => .var
  | '(' => .leftParenthesis
  | ')' => .rightParenthesis
  | c => (Operator.ofSymbol? c).elim (.other c) .operator

/-- A token and where it stands. -/
structure Lexeme where
  /-- The token. -/
  token : Token
  /-- The position in front of it. -/
  start : Nat
  /-- The position behind it. -/
  stop : Nat
  deriving DecidableEq, Repr

/-- The tokens of a text, the first character of which stands at a position. -/
def lexemes (position : Nat) : List Char → List Lexeme
  | [] => []
  | c :: cs =>
    if isBlank c then lexemes (position + 1) cs
    else if c.isDigit then
      let stop := position + (Number.Numeral.scan (c :: cs)).1.text.length
      ⟨.numeral (Number.Numeral.scan (c :: cs)).1, position, stop⟩ ::
        lexemes stop (Number.Numeral.scan (c :: cs)).2
    else ⟨.ofChar c, position, position + 1⟩ :: lexemes (position + 1) cs
termination_by cs => cs.length
decreasing_by
  · simp
  · have := Number.Numeral.length_scan (c :: cs)
    have := Number.Numeral.length_text_scan_pos cs ‹_›
    omega
  · simp

end Derivatives
