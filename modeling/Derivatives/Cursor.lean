import Derivatives.Number.Numeral

/-!
# Cursors

A cursor stands between two characters of a line (`Cursor`): it knows those it
has passed and those that are left. It only moves forward (`Cursor.advanceBy`);
what it passes is kept, so the line stays what it was. Line terminators at the
end of a line do not belong to it (`Cursor.ofLine`).
-/

namespace Derivatives

/-- Whether a character is a blank: a space or a tab. -/
def isBlank (c : Char) : Bool := c = ' ' || c = '\t'

/-- Whether a character ends a line. -/
def isTerminator (c : Char) : Bool := c = '\n' || c = '\r'

/-- What stands for the character at the end of a line. -/
def endOfLine : Char := '\n'

/-- The characters of a line without the terminators at its end. -/
def lineCharacters (line : String) : List Char :=
  (line.toList.reverse.dropWhile isTerminator).reverse

/-- A position in a line. -/
structure Cursor where
  /-- The characters passed, the last one first. -/
  before : List Char
  /-- The characters that are left. -/
  after : List Char

namespace Cursor

/-- The cursor at the start of a line. -/
def ofLine (line : String) : Cursor := ⟨[], lineCharacters line⟩

/-- The characters of the line. -/
def characters (c : Cursor) : List Char := c.before.reverse ++ c.after

/-- The number of characters passed. -/
def position (c : Cursor) : Nat := c.before.length

/-- The next character, or the end of line. -/
def peek (c : Cursor) : Char := c.after.headD endOfLine

/-- Whether no character is left. -/
def atEnd (c : Cursor) : Bool := c.after.isEmpty

/-- The characters that are left, as a text. -/
def rest (c : Cursor) : String := String.ofList c.after

/-- Passes `n` characters, or all that are left. -/
def advanceBy (c : Cursor) (n : Nat) : Cursor :=
  ⟨(c.after.take n).reverse ++ c.before, c.after.drop n⟩

/-- Passes the next character, if there is one. -/
def advance (c : Cursor) : Cursor := c.advanceBy 1

/-- Passes all blanks that come next. -/
def skipBlanks (c : Cursor) : Cursor := c.advanceBy (c.after.takeWhile isBlank).length

/-- Passes all characters that are left. -/
def toEnd (c : Cursor) : Cursor := c.advanceBy c.after.length

/-- Passes the numeral that comes next, whether or not it has a value. -/
def readNumber (c : Cursor) : Except Error Float × Cursor :=
  let numeral := (Number.Numeral.scan c.after).1
  (numeral.value, c.advanceBy numeral.text.length)

/-! ## The line stays what it was -/

theorem characters_advanceBy (c : Cursor) (n : Nat) :
    (c.advanceBy n).characters = c.characters := by
  simp [characters, advanceBy]

theorem position_advanceBy (c : Cursor) (n : Nat) :
    (c.advanceBy n).position = c.position + min n c.after.length := by
  simp [position, advanceBy, Nat.add_comm]

end Cursor

end Derivatives
