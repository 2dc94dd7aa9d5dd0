import Derivatives.Expr
import Derivatives.Token

/-!
# Reading expressions

The text of an expression follows the grammar

    expression := ['-'] term { ('+' | '-') term }
    term       := factor { ('*' | '/') factor }
    factor     := number | 'x' | 'X' | '(' expression ')'

with blanks around the tokens. Chains of operators group from the left, `*` and
`/` bind tighter than `+` and `-`, and a leading minus negates the first term.

It is read token by token. In between, the state of the reading (`Reading`) is
that an operand has to come next, or that one has just come; each of the groups
opened by the parentheses around remembers what stands to the left of the operand
it awaits (`Pending`). A token that cannot come next is refused on the spot
(`Reading.step`), so that the place where reading stops is the first one where
the text stops being the start of an expression. Neither parentheses nor the
expression read may nest more than `maxDepth` levels deep.
-/

namespace Derivatives

/-- The number of levels that parentheses and expressions may nest. -/
def maxDepth : Nat := 512

/-- What stands to the left of a term. -/
inductive Lead
  /-- Nothing: the term is the first of its group. -/
  | start
  /-- The minus sign of the first term of a group. -/
  | minus
  /-- The sum so far and the operator after it. -/
  | sum (left : Expr) (op : Operator)
  deriving DecidableEq

/-- The sum so far, with its latest term. -/
def Lead.append : Lead → Expr → Expr
  | .start, term => term
  | .minus, term => .negate term
  | .sum left op, term => .binary op left term

/-- What stands to the left of an operand in its group. -/
structure Pending where
  /-- What stands to the left of the term it belongs to. -/
  lead : Lead := .start
  /-- The product so far and the operator after it, unless the operand is the
      first factor of its term. -/
  product : Option (Expr × Operator) := none
  deriving DecidableEq

/-- The product so far, with its latest factor. -/
def Pending.append (pending : Pending) (factor : Expr) : Expr :=
  match pending.product with
  | none => factor
  | some (left, op) => .binary op left factor

/-- The state of the reading of an expression, inside of the groups `outer`, the
    innermost one first. -/
inductive Reading
  /-- An operand has to come next. -/
  | awaiting (outer : List Pending) (pending : Pending)
  /-- An operand has come, the last one so far of `term`. -/
  | complete (outer : List Pending) (lead : Lead) (term : Expr)
  deriving DecidableEq

namespace Reading

/-- The state before the first token. -/
def initial : Reading := awaiting [] {}

/-- The state after an operand has come. -/
def afterOperand (outer : List Pending) (pending : Pending) (operand : Expr) : Reading :=
  complete outer pending.lead (pending.append operand)

/-- The state after the next token, if that token can come next. -/
def step : Reading → Token → Except Error Reading
  | awaiting outer pending, token =>
    match token with
    | .numeral n => do
      let value ← n.value
      return afterOperand outer pending (.constant value)
    | .var => .ok (afterOperand outer pending .var)
    | .leftParenthesis =>
      if outer.length = maxDepth then .error (.nestedTooDeeply maxDepth)
      else .ok (awaiting (pending :: outer) {})
    | .operator op =>
      if op = .sub ∧ pending = {} then .ok (awaiting outer { lead := .minus })
      else .error (.misplacedOperator op.symbol)
    | .rightParenthesis => .error .extraRightParenthesis
    | .other c =>
      .error (if c = endOfLine then .unexpectedEndOfLine else .unexpectedCharacter c)
  | complete outer lead term, token =>
    match token, outer with
    | .operator op, _ =>
      if op.isAdditive then .ok (awaiting outer { lead := .sum (lead.append term) op })
      else .ok (awaiting outer { lead, product := some (term, op) })
    | .rightParenthesis, pending :: outer =>
      .ok (afterOperand outer pending (lead.append term))
    | _, [] => .error .extraData
    | _, _ :: _ => .error .missingRightParenthesis

/-- The expression read, if the text can end here. -/
def finish : Reading → Except Error Expr
  | awaiting _ _ => .error .unexpectedEndOfLine
  | complete (_ :: _) _ _ => .error .missingRightParenthesis
  | complete [] lead term =>
    let e := lead.append term
    if maxDepth < e.depth then .error (.nestedTooDeeply maxDepth) else .ok e

/-- Where reading stops when it refuses a token: in front of it, but behind a
    numeral, whose value is only looked at where an operand has to come. -/
def refusalPosition : Reading → Lexeme → Nat
  | awaiting _ _, ⟨.numeral _, _, stop⟩ => stop
  | _, lexeme => lexeme.start

end Reading

/-- The reason why a text is not an expression, and where reading it stopped. -/
structure Refusal where
  /-- The reason. -/
  error : Error
  /-- The number of characters read. -/
  position : Nat
  deriving DecidableEq, Repr

/-- Reads the remaining tokens of a text of `length` characters. -/
def Reading.run (state : Reading) (length : Nat) : List Lexeme → Except Refusal Expr
  | [] => state.finish.mapError (⟨·, length⟩)
  | lexeme :: rest =>
    match state.step lexeme.token with
    | .ok next => next.run length rest
    | .error error => .error ⟨error, state.refusalPosition lexeme⟩

/-- Reads a text that consists of one expression. -/
def Expr.read (cs : List Char) : Except Refusal Expr :=
  Reading.initial.run cs.length (lexemes 0 cs)

/-- Reads what is left of a line as one expression, and stops behind it, or where
    it is refused. -/
def Cursor.readExpr (c : Cursor) : Except Error Expr × Cursor :=
  match Expr.read c.after with
  | .ok e => (.ok e, c.toEnd)
  | .error refusal => (.error refusal.error, c.advanceBy refusal.position)

/-- The expression on a line. -/
def Expr.parse (line : String) : Except Error Expr := (Cursor.ofLine line).readExpr.1

end Derivatives
