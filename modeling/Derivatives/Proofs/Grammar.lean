import Derivatives.Expr.Reading
import Derivatives.Proofs.Number.Numeral

/-!
# The grammar of expressions

The grammar

    expression := ['-'] term { ('+' | '-') term }
    term       := factor { ('*' | '/') factor }
    factor     := number | 'x' | 'X' | '(' expression ')'
    number     := digit {digit} ['.' {digit}] [('e' | 'E') ['+' | '-'] digit {digit}]

derives texts, with blanks in front of the tokens. A derivation (`Derivation`) is
one of a symbol of the grammar, where what goes on with a chain of operators is a
symbol of its own. It spells a text (`Derivation.text`) and stands for an
expression (`Derivation.tree`), in which chains group from the left and a minus
sign negates the first term. It opens a number of parentheses at once
(`Derivation.nesting`), and numbers stand in it (`Derivation.literals`).

A sentence (`Sentence`) is a derivation of an expression with blanks behind it.
It is *readable* (`Sentence.Readable`) if neither its parentheses nor its tree are
too deep, and if its numbers are finite.
-/

namespace Derivatives.Grammar

open Number

/-- Characters that are blanks. -/
abbrev Blanks := { cs : List Char // ∀ c ∈ cs, isBlank c }

/-- No blanks. -/
def noBlanks : Blanks := ⟨[], fun _ h => absurd h List.not_mem_nil⟩

/-- A single space. -/
def space : Blanks := ⟨[' '], List.forall_mem_singleton.2 rfl⟩

/-- A number as the grammar has it: digits, a point with digits after it, and an
    exponent, of which only the first are not optional. -/
abbrev Literal := { n : Numeral // n.IsLiteral }

/-- The symbols of the grammar. -/
inductive Symbol
  /-- A sum of terms. -/
  | expression
  /-- What goes on with a sum. -/
  | terms
  /-- A product of factors. -/
  | term
  /-- What goes on with a product. -/
  | factors
  /-- An operand. -/
  | factor

/-- What a derivation of a symbol stands for: an expression, or, if it goes on with
    a chain, what becomes of the chain so far. -/
abbrev Symbol.Meaning : Symbol → Type
  | expression | term | factor => Expr
  | terms | factors => Expr → Expr

/-- The derivations of a symbol, with the blanks in front of each token. -/
inductive Derivation : Symbol → Type
  /-- A minus sign, if there is one, a term, and what goes on with them. -/
  | expression (minus : Option Blanks) (first : Derivation .term) (rest : Derivation .terms) :
      Derivation .expression
  /-- The end of a sum. -/
  | noTerm : Derivation .terms
  /-- One more term of a sum. -/
  | andTerm (blanks : Blanks) (op : Operator) (hop : op.isAdditive = true)
      (next : Derivation .term) (rest : Derivation .terms) : Derivation .terms
  /-- A factor and what goes on with it. -/
  | term (first : Derivation .factor) (rest : Derivation .factors) : Derivation .term
  /-- The end of a product. -/
  | noFactor : Derivation .factors
  /-- One more factor of a product. -/
  | andFactor (blanks : Blanks) (op : Operator) (hop : op.isAdditive = false)
      (next : Derivation .factor) (rest : Derivation .factors) : Derivation .factors
  /-- A number. -/
  | number (blanks : Blanks) (literal : Literal) : Derivation .factor
  /-- The variable. -/
  | var (blanks : Blanks) (c : Char) (hc : c = 'x' ∨ c = 'X') : Derivation .factor
  /-- An expression in parentheses. -/
  | group (blanks : Blanks) (inner : Derivation .expression) (closing : Blanks) :
      Derivation .factor

namespace Derivation

variable {s : Symbol}

/-- The text of a derivation. -/
def text : {s : Symbol} → Derivation s → List Char
  | _, expression minus first rest =>
    minus.elim [] (fun blanks => blanks.val ++ ['-']) ++ (first.text ++ rest.text)
  | _, noTerm | _, noFactor => []
  | _, andTerm blanks op _ next rest => blanks.val ++ op.symbol :: (next.text ++ rest.text)
  | _, term first rest => first.text ++ rest.text
  | _, andFactor blanks op _ next rest => blanks.val ++ op.symbol :: (next.text ++ rest.text)
  | _, number blanks literal => blanks.val ++ literal.val.text
  | _, var blanks c _ => blanks.val ++ [c]
  | _, group blanks inner closing => blanks.val ++ '(' :: (inner.text ++ (closing.val ++ [')']))

/-- What a derivation stands for. -/
def tree : {s : Symbol} → Derivation s → s.Meaning
  | _, expression none first rest => rest.tree first.tree
  | _, expression (some _) first rest => rest.tree (.negate first.tree)
  | _, noTerm | _, noFactor => id
  | _, andTerm _ op _ next rest => fun left => rest.tree (.binary op left next.tree)
  | _, term first rest => rest.tree first.tree
  | _, andFactor _ op _ next rest => fun left => rest.tree (.binary op left next.tree)
  | _, number _ literal => .constant literal.val.double
  | _, var _ _ _ => .var
  | _, group _ inner _ => inner.tree

/-- The largest number of parentheses of a derivation that are open at once. -/
def nesting : {s : Symbol} → Derivation s → Nat
  | _, expression _ first rest => max first.nesting rest.nesting
  | _, noTerm | _, noFactor => 0
  | _, andTerm _ _ _ next rest => max next.nesting rest.nesting
  | _, term first rest => max first.nesting rest.nesting
  | _, andFactor _ _ _ next rest => max next.nesting rest.nesting
  | _, number _ _ | _, var _ _ _ => 0
  | _, group _ inner _ => inner.nesting + 1

/-- The numbers in a derivation. -/
def literals : {s : Symbol} → Derivation s → List Literal
  | _, expression _ first rest => first.literals ++ rest.literals
  | _, noTerm | _, noFactor => []
  | _, andTerm _ _ _ next rest => next.literals ++ rest.literals
  | _, term first rest => first.literals ++ rest.literals
  | _, andFactor _ _ _ next rest => next.literals ++ rest.literals
  | _, number _ literal => [literal]
  | _, var _ _ _ => []
  | _, group _ inner _ => inner.literals

/-- A derivation inside of `level` groups can be read, as far as its parentheses and
    its numbers go. -/
def Fits (level : Nat) (d : Derivation s) : Prop :=
  level + d.nesting ≤ maxDepth ∧ ∀ n ∈ d.literals, n.val.IsFinite

theorem fits_iff_of_eq {s₁ s₂ : Symbol} {level : Nat} {d : Derivation s} {d₁ : Derivation s₁}
    {d₂ : Derivation s₂} (hn : d.nesting = max d₁.nesting d₂.nesting)
    (hl : d.literals = d₁.literals ++ d₂.literals) :
    d.Fits level ↔ d₁.Fits level ∧ d₂.Fits level := by
  rw [Fits, hn, hl, ← Nat.add_max_add_left, Nat.max_le, List.forall_mem_append]
  exact and_and_and_comm

section Fits

variable {level : Nat} {blanks closing : Blanks} {op : Operator}

theorem fits_expression {minus : Option Blanks} {first : Derivation .term}
    {rest : Derivation .terms} :
    (expression minus first rest).Fits level ↔ first.Fits level ∧ rest.Fits level :=
  fits_iff_of_eq rfl rfl

theorem fits_andTerm {hop : op.isAdditive = true} {next : Derivation .term}
    {rest : Derivation .terms} :
    (andTerm blanks op hop next rest).Fits level ↔ next.Fits level ∧ rest.Fits level :=
  fits_iff_of_eq rfl rfl

theorem fits_term {first : Derivation .factor} {rest : Derivation .factors} :
    (term first rest).Fits level ↔ first.Fits level ∧ rest.Fits level :=
  fits_iff_of_eq rfl rfl

theorem fits_andFactor {hop : op.isAdditive = false} {next : Derivation .factor}
    {rest : Derivation .factors} :
    (andFactor blanks op hop next rest).Fits level ↔ next.Fits level ∧ rest.Fits level :=
  fits_iff_of_eq rfl rfl

theorem fits_group {inner : Derivation .expression} :
    (group blanks inner closing).Fits level ↔ inner.Fits (level + 1) := by
  rw [Fits, Fits, nesting, literals, Nat.add_right_comm, Nat.add_assoc]

theorem fits_noTerm : noTerm.Fits level ↔ level ≤ maxDepth :=
  and_iff_left fun _ hn => by cases hn

theorem fits_noFactor : noFactor.Fits level ↔ level ≤ maxDepth :=
  and_iff_left fun _ hn => by cases hn

theorem fits_var {c : Char} {hc : c = 'x' ∨ c = 'X'} :
    (var blanks c hc).Fits level ↔ level ≤ maxDepth :=
  and_iff_left fun _ hn => by cases hn

theorem fits_number {literal : Literal} :
    (number blanks literal).Fits level ↔ level ≤ maxDepth ∧ literal.val.IsFinite :=
  and_congr_right fun _ => List.forall_mem_singleton

end Fits

end Derivation

/-! ## What comes behind a number -/

section Stops

variable {rest : List Char}

theorem stops_operator (op : Operator) : Numeral.Stops (op.symbol :: rest) := by
  cases op <;> exact Numeral.stops_cons (by decide)

theorem eq_of_isBlank {c : Char} (hc : isBlank c) : c = ' ' ∨ c = '\t' := by
  rwa [isBlank, Bool.or_eq_true, decide_eq_true_iff, decide_eq_true_iff] at hc

theorem stops_blanks_append (blanks : Blanks) (hrest : Numeral.Stops rest) :
    Numeral.Stops (blanks.val ++ rest) := by
  obtain ⟨bs, hbs⟩ := blanks
  cases bs with
  | nil => exact hrest
  | cons b bs =>
    rcases eq_of_isBlank (hbs b List.mem_cons_self) with rfl | rfl <;>
      exact Numeral.stops_cons (by decide)

theorem stops_closing (closing : Blanks) : Numeral.Stops (closing.val ++ ')' :: rest) :=
  stops_blanks_append closing (Numeral.stops_cons (by decide))

/-- What goes on with a sum does not go on with a number in front of it. -/
theorem Derivation.stops_terms (d : Derivation .terms) (hrest : Numeral.Stops rest) :
    Numeral.Stops (d.text ++ rest) := by
  cases d with
  | noTerm => exact hrest
  | andTerm blanks op hop next more =>
    rw [text, List.append_assoc]
    exact stops_blanks_append blanks (stops_operator op)

/-- What goes on with a product does not go on with a number in front of it. -/
theorem Derivation.stops_factors (d : Derivation .factors) (hrest : Numeral.Stops rest) :
    Numeral.Stops (d.text ++ rest) := by
  cases d with
  | noFactor => exact hrest
  | andFactor blanks op hop next more =>
    rw [text, List.append_assoc]
    exact stops_blanks_append blanks (stops_operator op)

end Stops

/-- A derivation of an expression, and the blanks behind it. -/
structure Sentence where
  /-- The derivation. -/
  expression : Derivation .expression
  /-- The blanks. -/
  trailing : Blanks

namespace Sentence

/-- The text of a sentence. -/
def text (s : Sentence) : List Char := s.expression.text ++ s.trailing.val

/-- The expression a sentence stands for. -/
def tree (s : Sentence) : Expr := s.expression.tree

/-- The limits on what is read hold of a sentence. -/
structure Readable (s : Sentence) : Prop where
  nesting_le : s.expression.nesting ≤ maxDepth
  finite : ∀ n ∈ s.expression.literals, n.val.IsFinite
  depth_le : s.tree.depth ≤ maxDepth

theorem readable_iff (s : Sentence) :
    s.Readable ↔ s.expression.nesting ≤ maxDepth ∧
      s.expression.literals.all (fun n => n.val.IsFinite) ∧ s.tree.depth ≤ maxDepth := by
  simp only [List.all_eq_true, decide_eq_true_iff]
  exact ⟨fun h => ⟨h.nesting_le, h.finite, h.depth_le⟩,
    fun ⟨nesting, finite, depth⟩ => ⟨nesting, finite, depth⟩⟩

instance (s : Sentence) : Decidable s.Readable := decidable_of_iff' _ s.readable_iff

end Sentence

end Derivatives.Grammar
