import Derivatives.Proofs.Cursor
import Derivatives.Proofs.Expr.Refusal

/-!
# Recursive descent

The grammar of expressions can be read by functions that call one another, one for each of
its symbols (`Descent.expression`, `Descent.terms`, `Descent.term`, `Descent.factors`,
`Descent.factor`). They share a cursor, a graph, and a counter of the groups around
(`Descent`): every node is added as soon as its operands have been read, and the counter
goes up and down with the parentheses passed.

Calls may only go a given number of levels deep, so that they end; with a number that grows
with the length of the line, no call is cut short (`Descent.returns`).
-/

namespace Derivatives

open Number

/-- A call for a factor. -/
structure FactorCall where
  /-- The position at which a factor is looked for. -/
  position : Nat
  /-- The counter of the groups around. -/
  nesting : Nat
  deriving DecidableEq, Repr

/-- What the functions of the descent share. -/
structure Descent where
  /-- Where they are on the line. -/
  cursor : Cursor
  /-- The nodes added so far. -/
  graph : Graph := {}
  /-- The counter of the groups around. -/
  nesting : Nat := 0
  /-- The calls for a factor so far, the last one first. -/
  calls : List FactorCall := []

namespace Descent

/-- What comes of a call. -/
inductive Outcome
  /-- The node at a place has been read. -/
  | done (place : Nat) (s : Descent)
  /-- The text is refused. -/
  | refused (err : Error) (s : Descent)
  /-- The call would have to go deeper than it may. -/
  | exhausted

/-- One call after another, which is given the place that comes of the first. -/
def Outcome.andThen : Outcome → (Nat → Descent → Outcome) → Outcome
  | done place s, next => next place s
  | refused err s, _ => refused err s
  | exhausted, _ => exhausted

/-- The next character, or the end of line. -/
def peek (s : Descent) : Char := s.cursor.peek

/-- Passes all blanks that come next. -/
def skipBlanks (s : Descent) : Descent := { s with cursor := s.cursor.skipBlanks }

/-- Passes the next character. -/
def advance (s : Descent) : Descent := { s with cursor := s.cursor.advance }

/-- Takes note of a call for a factor. -/
def note (s : Descent) : Descent :=
  { s with calls := ⟨s.cursor.position, s.nesting⟩ :: s.calls }

/-- Adds a node. -/
def push (s : Descent) (node : Node Nat) : Outcome :=
  .done s.graph.size { s with graph := (s.graph.add node).1 }

/-- Passes an operator and goes on. -/
def operator (s : Descent) (next : Operator → Descent → Outcome) : Outcome :=
  match Operator.ofSymbol? s.peek with
  | some op => next op s.advance
  | none => .refused (.unexpectedCharacter s.peek) s.advance

/-- Reads the number that comes next. -/
def number (s : Descent) : Outcome :=
  match s.cursor.readNumber with
  | (.ok value, c) => { s with cursor := c }.push (.constant value)
  | (.error err, c) => .refused err { s with cursor := c }

/-- Passes an opening parenthesis. -/
def enter (s : Descent) : Descent := { s.advance with nesting := s.nesting + 1 }

/-- Passes the closing parenthesis behind the expression at a place. -/
def leave (place : Nat) (s : Descent) : Outcome :=
  if s.skipBlanks.peek = ')' then
    .done place { s.skipBlanks.advance with nesting := s.nesting - 1 }
  else .refused .missingRightParenthesis s.skipBlanks

/-- Reads what goes on with the chain at a place: an operator with one of the symbols, an
    operand, and the rest. -/
def chain (symbols : List Char) (operand : Descent → Outcome) (rest : Nat → Descent → Outcome)
    (left : Nat) (s : Descent) : Outcome :=
  if s.skipBlanks.peek ∈ symbols then
    s.skipBlanks.operator fun op s => (operand s).andThen fun right s =>
      (s.push (.binary op left right)).andThen rest
  else .done left s.skipBlanks

mutual

/-- Reads an expression, by calls that go the given number of levels deep at most, as all
    of these functions do. -/
def expression : Nat → Descent → Outcome
  | 0, _ => .exhausted
  | levels + 1, s =>
    if s.skipBlanks.peek = '-' then
      (term levels s.skipBlanks.advance).andThen fun first s =>
        (s.push (.negate first)).andThen (terms levels)
    else (term levels s.skipBlanks).andThen (terms levels)

/-- Reads what goes on with the sum at a place. -/
def terms : Nat → Nat → Descent → Outcome
  | 0, _, _ => .exhausted
  | levels + 1, left, s => chain ['+', '-'] (term levels) (terms levels) left s

/-- Reads a term. -/
def term : Nat → Descent → Outcome
  | 0, _ => .exhausted
  | levels + 1, s => (factor levels s.skipBlanks).andThen (factors levels)

/-- Reads what goes on with the product at a place. -/
def factors : Nat → Nat → Descent → Outcome
  | 0, _, _ => .exhausted
  | levels + 1, left, s => chain ['*', '/'] (factor levels) (factors levels) left s

/-- Reads a factor. -/
def factor : Nat → Descent → Outcome
  | 0, _ => .exhausted
  | levels + 1, s =>
    let s := s.skipBlanks.note
    if s.peek.isDigit then s.number
    else if s.peek = 'x' ∨ s.peek = 'X' then s.advance.push .var
    else if s.peek = '(' then
      if s.nesting = maxDepth then .refused (.nestedTooDeeply maxDepth) s
      else (expression levels s.enter).andThen leave
    else .refused (.atOperand (some s.peek)) s

end

/-- Reads an expression and what is left of its line, which has to be blank. -/
def line (levels : Nat) (s : Descent) : Outcome :=
  (expression levels s).andThen fun root s =>
    if s.skipBlanks.cursor.atEnd then
      if maxDepth < s.graph.depth root then .refused (.nestedTooDeeply maxDepth) s.skipBlanks
      else .done root s.skipBlanks
    else .refused .extraData s.skipBlanks

/-- The state that a call comes back in. -/
def Outcome.state? : Outcome → Option Descent
  | done _ s | refused _ s => some s
  | exhausted => none

/-- What a call for a line comes to: a formula or an error, and the cursor. -/
def Outcome.result : Outcome → Option (Except Error Formula × Cursor)
  | done root s => some (.ok ⟨s.graph, root⟩, s.cursor)
  | refused err s => some (.error err, s.cursor)
  | exhausted => none

/-! ## What a call can come to -/

/-- An outcome meets a condition: one for what has been read, one for a refusal, and one for
    a call that would have to go too deep. -/
def Outcome.Satisfies (exhausted : Prop) (done : Nat → Descent → Prop)
    (refused : Error → Descent → Prop) : Outcome → Prop
  | .done place s => done place s
  | .refused err s => refused err s
  | .exhausted => exhausted

section Satisfies

variable {exhausted : Prop} {done done' : Nat → Descent → Prop}
  {refused refused' : Error → Descent → Prop} {o : Outcome} {next : Nat → Descent → Outcome}

theorem Outcome.Satisfies.imp (h : o.Satisfies exhausted done refused)
    (hdone : ∀ place s, done place s → done' place s)
    (hrefused : ∀ err s, refused err s → refused' err s) :
    o.Satisfies exhausted done' refused' := by
  cases o with
  | done place s => exact hdone place s h
  | refused err s => exact hrefused err s h
  | exhausted => exact h

theorem Outcome.Satisfies.andThen (h : o.Satisfies exhausted done refused')
    (hdone : ∀ place s, done place s → (next place s).Satisfies exhausted done' refused)
    (hrefused : ∀ err s, refused' err s → refused err s) :
    (o.andThen next).Satisfies exhausted done' refused := by
  cases o with
  | done place s => exact hdone place s h
  | refused err s => exact hrefused err s h
  | exhausted => exact h

end Satisfies

/-! ## Chains -/

section Chain

variable {symbols : List Char} {operand : Descent → Outcome} {rest : Nat → Descent → Outcome}
  {s : Descent}

/-- Where a chain goes on, the operator is passed, and its operand is called for. -/
theorem chain_of_peek {op : Operator} (hpeek : s.skipBlanks.peek = op.symbol)
    (hop : op.symbol ∈ symbols) (left : Nat) :
    chain symbols operand rest left s = (operand s.skipBlanks.advance).andThen fun right t =>
      (t.push (.binary op left right)).andThen rest := by
  rw [chain, hpeek, if_pos hop, operator, hpeek, Operator.ofSymbol?_symbol]

/-- A chain ends, or it goes on with an operator. -/
theorem chain_cases (hsymbols : ∀ c ∈ symbols, (Operator.ofSymbol? c).isSome)
    (operand : Descent → Outcome) (rest : Nat → Descent → Outcome) (left : Nat) (s : Descent) :
    (s.skipBlanks.peek ∉ symbols ∧ chain symbols operand rest left s = .done left s.skipBlanks) ∨
    ∃ op : Operator, s.skipBlanks.peek = op.symbol ∧ op.symbol ∈ symbols ∧
      chain symbols operand rest left s = (operand s.skipBlanks.advance).andThen fun right t =>
        (t.push (.binary op left right)).andThen rest := by
  by_cases hpeek : s.skipBlanks.peek ∈ symbols
  · obtain ⟨op, hop⟩ := Option.isSome_iff_exists.1 (hsymbols _ hpeek)
    have hsymbol := Operator.eq_symbol_of_ofSymbol? hop
    exact .inr ⟨op, hsymbol, hsymbol ▸ hpeek, chain_of_peek hsymbol (hsymbol ▸ hpeek) left⟩
  · exact .inl ⟨hpeek, if_neg hpeek⟩

theorem isSome_of_mem_additive : ∀ c ∈ ['+', '-'], (Operator.ofSymbol? c).isSome :=
  List.forall_mem_cons.2 ⟨rfl, List.forall_mem_singleton.2 rfl⟩

theorem isSome_of_mem_multiplicative : ∀ c ∈ ['*', '/'], (Operator.ofSymbol? c).isSome :=
  List.forall_mem_cons.2 ⟨rfl, List.forall_mem_singleton.2 rfl⟩

end Chain

end Descent

end Derivatives
