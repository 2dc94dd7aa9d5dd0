/-!
# Errors

What can go wrong, one constructor a cause, and the text each cause is
announced with (`Error.message`). The causes that lie in the text of a line
are told apart from those of the machine and of the surroundings
(`Error.isParseFailure`): only the former reject a line, the others end what is
being done.
-/

namespace Derivatives

/-- Why no further line could be obtained from the editor. -/
inductive InputFault
  /-- The input is exhausted. -/
  | endOfInput
  /-- The user interrupted the line being typed. -/
  | interrupted
  /-- Reading failed, with the given text. -/
  | failed (reason : String)
  deriving DecidableEq, Repr

namespace InputFault

/-- The text of an input fault. -/
def message : InputFault → String
  | endOfInput => "EOF"
  | interrupted => "Interrupted"
  | failed reason => reason

end InputFault

/-- The causes of failure. -/
inductive Error
  /-- The line ended where an operand had to come. -/
  | unexpectedEndOfLine
  /-- A `)` where an operand had to come. -/
  | extraRightParenthesis
  /-- An operator where an operand had to come. -/
  | misplacedOperator (symbol : Char)
  /-- A character that starts no operand, where one had to come. -/
  | unexpectedCharacter (character : Char)
  /-- Something else than `)` or an operator after an operand inside parentheses. -/
  | missingRightParenthesis
  /-- Something else than an operator after a complete expression. -/
  | extraData
  /-- The text of a number without a digit in its mantissa. -/
  | invalidNumber (literal : String)
  /-- The text of a number whose nearest double is infinite. -/
  | numberOutOfRange (literal : String)
  /-- More levels of nesting than the limit. -/
  | nestedTooDeeply (limit : Nat)
  /-- A command met a stack with too few values; the text is the command's. -/
  | stackUnderflow (command : String)
  /-- A program ended with a number of values other than one. -/
  | unbalancedStack (height : Nat)
  /-- Writing failed, with the given text. -/
  | outputFailed (reason : String)
  /-- No line could be read. -/
  | inputFailed (fault : InputFault)
  deriving DecidableEq, Repr

namespace Error

/-- The text an error is announced with. -/
def message : Error → String
  | unexpectedEndOfLine => "End-of-line encountered in the middle of an expression."
  | extraRightParenthesis => "Extra right parenthesis."
  | misplacedOperator _ => "Misplaced operator."
  | unexpectedCharacter c => "Unexpected character \"" ++ c.toString ++ "\" encountered."
  | missingRightParenthesis => "Missing right parenthesis."
  | extraData => "Extra data after end of expression."
  | invalidNumber "" => "Invalid number: cannot parse float from empty string"
  | invalidNumber _ => "Invalid number: invalid float literal"
  | numberOutOfRange literal => "Number " ++ literal ++ " is out of range."
  | nestedTooDeeply limit => "Expression nested more than " ++ limit.repr ++ " levels deep."
  | stackUnderflow command => "Stack underflow while executing: " ++ command
  | unbalancedStack height =>
    "Stack holds " ++ height.repr ++ " values after execution, expected 1"
  | outputFailed reason => "IO error: " ++ reason
  | inputFailed fault => "Line editor error: " ++ fault.message

/-- Whether the error lies in the text of a line. -/
def isParseFailure : Error → Bool
  | unexpectedEndOfLine | extraRightParenthesis | misplacedOperator _ | unexpectedCharacter _
  | missingRightParenthesis | extraData | invalidNumber _ | numberOutOfRange _
  | nestedTooDeeply _ => true
  | stackUnderflow _ | unbalancedStack _ | outputFailed _ | inputFailed _ => false

end Error

end Derivatives
