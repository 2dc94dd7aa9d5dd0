import Derivatives.Proofs.Grammar
import Derivatives.Proofs.Token

/-!
# The grammar is unambiguous

A derivation is found in a text by looking one token ahead. Behind what is derived
from a symbol, that token must not go on with it (`Symbol.EndsAt`); then the text
determines the derivation and where it ends (`Derivation.Determined`), part by part. So
a sentence is determined by its text (`Sentence.text_injective`).
-/

namespace Derivatives.Grammar

open Number

variable {s : Symbol} {r r' : List Char}

/-! ## Blanks -/

theorem blanks_append_inj {bs bs' : Blanks} (hr : ∀ c ∈ r.head?, isBlank c = false)
    (hr' : ∀ c ∈ r'.head?, isBlank c = false) (h : bs.val ++ r = bs'.val ++ r') :
    bs = bs' ∧ r = r' := by
  have hbs : bs.val = bs'.val := by
    rw [← Numeral.takeWhile_append_of_head bs.property hr, h,
      Numeral.takeWhile_append_of_head bs'.property hr']
  rw [hbs] at h
  exact ⟨Subtype.ext hbs, List.append_cancel_left h⟩

theorem blanks_cons_inj {bs bs' : Blanks} {c c' : Char} (hc : isBlank c = false)
    (hc' : isBlank c' = false) (h : bs.val ++ c :: r = bs'.val ++ c' :: r') :
    bs = bs' ∧ c = c' ∧ r = r' := by
  have hhead : ∀ {d : Char} {u : List Char}, isBlank d = false →
      ∀ e ∈ (d :: u).head?, isBlank e = false := by
    intro d u hd e he
    obtain rfl := Option.some.inj he
    exact hd
  obtain ⟨hbs, hcons⟩ := blanks_append_inj (hhead hc) (hhead hc') h
  exact ⟨hbs, List.cons.inj hcons⟩

theorem isBlank_symbol (op : Operator) : isBlank op.symbol = false := by cases op <;> rfl

theorem symbol_injective {op op' : Operator} (h : op.symbol = op'.symbol) : op = op' := by
  have := Operator.ofSymbol?_symbol op
  rw [h, Operator.ofSymbol?_symbol] at this
  exact (Option.some.inj this).symm

/-! ## One token ahead -/

theorem tokens_operator (blanks : Blanks) (op : Operator) :
    tokens (blanks.val ++ op.symbol :: r) = .operator op :: tokens r := by
  rw [tokens_blanks_append blanks.property]
  cases op <;> exact tokens_cons rfl (by decide)

namespace Derivation

theorem tokens_number {blanks : Blanks} {literal : Literal} (hr : Numeral.Stops r) :
    tokens ((number blanks literal).text ++ r) = .numeral literal.val :: tokens r := by
  rw [text, List.append_assoc, tokens_blanks_append blanks.property]
  exact tokens_literal_append literal.property hr

theorem tokens_var {blanks : Blanks} {c : Char} {hc : c = 'x' ∨ c = 'X'} :
    tokens ((var blanks c hc).text ++ r) = .var :: tokens r := by
  rw [text, List.append_assoc, tokens_blanks_append blanks.property]
  rcases hc with rfl | rfl <;> exact tokens_cons rfl (by decide)

theorem tokens_group {blanks closing : Blanks} {inner : Derivation .expression} :
    tokens ((group blanks inner closing).text ++ r) =
      .leftParenthesis :: tokens (inner.text ++ (closing.val ++ ')' :: r)) := by
  rw [text, List.append_assoc, tokens_blanks_append blanks.property, List.cons_append,
    List.append_assoc, List.append_assoc, List.singleton_append]
  exact tokens_cons rfl (by decide)

theorem tokens_andTerm {blanks : Blanks} {op : Operator} {hop : op.isAdditive = true}
    {next : Derivation .term} {more : Derivation .terms} :
    tokens ((andTerm blanks op hop next more).text ++ r) =
      .operator op :: tokens (next.text ++ (more.text ++ r)) := by
  rw [text, List.append_assoc, List.cons_append, List.append_assoc, tokens_operator]

theorem tokens_andFactor {blanks : Blanks} {op : Operator} {hop : op.isAdditive = false}
    {next : Derivation .factor} {more : Derivation .factors} :
    tokens ((andFactor blanks op hop next more).text ++ r) =
      .operator op :: tokens (next.text ++ (more.text ++ r)) := by
  rw [text, List.append_assoc, List.cons_append, List.append_assoc, tokens_operator]

/-- No factor starts with an operator. -/
theorem factor_ne_operator (d : Derivation .factor) (hr : Numeral.Stops r) (op : Operator) :
    (tokens (d.text ++ r)).head? ≠ some (.operator op) := by
  cases d with
  | number => simp [tokens_number hr]
  | var => simp [tokens_var]
  | group => simp [tokens_group]

/-- No term starts with an operator. -/
theorem term_ne_operator (d : Derivation .term) (hr : Numeral.Stops r) (op : Operator) :
    (tokens (d.text ++ r)).head? ≠ some (.operator op) := by
  cases d with
  | term first more =>
    rw [text, List.append_assoc]
    exact first.factor_ne_operator (more.stops_factors hr) op

end Derivation

/-- The operators that go on with what is derived from a symbol. -/
def Symbol.GoesOn : Symbol → Operator → Prop
  | expression, _ | terms, _ => True
  | term, op | factors, op => op.isAdditive = false
  | factor, _ => False

/-- What is derived from a symbol does not go on with a text behind it. -/
structure Symbol.EndsAt (s : Symbol) (rest : List Char) : Prop where
  stops : Numeral.Stops rest
  ne_operator : ∀ op, s.GoesOn op → (tokens rest).head? ≠ some (.operator op)

theorem Symbol.EndsAt.terms (h : expression.EndsAt r) : Symbol.terms.EndsAt r :=
  ⟨h.stops, h.ne_operator⟩

theorem Symbol.EndsAt.factors (h : term.EndsAt r) : Symbol.factors.EndsAt r :=
  ⟨h.stops, h.ne_operator⟩

theorem Derivation.endsAt_terms (d : Derivation .terms) (hr : Symbol.terms.EndsAt r) :
    Symbol.term.EndsAt (d.text ++ r) := by
  refine ⟨d.stops_terms hr.stops, fun op hop => ?_⟩
  cases d with
  | noTerm => exact hr.ne_operator op trivial
  -- The next token is an operator, but none that joins factors.
  | @andTerm blanks op' hop' next more =>
    rw [tokens_andTerm, List.head?_cons, ne_eq, Option.some_inj, Token.operator.injEq]
    rintro rfl
    exact Bool.false_ne_true (hop.symm.trans hop')

theorem Derivation.endsAt_factors (d : Derivation .factors) (hr : Symbol.factors.EndsAt r) :
    Symbol.factor.EndsAt (d.text ++ r) :=
  ⟨d.stops_factors hr.stops, fun _ hop => hop.elim⟩

theorem endsAt_closing (closing : Blanks) : Symbol.expression.EndsAt (closing.val ++ ')' :: r) := by
  refine ⟨stops_closing closing, fun op _ => ?_⟩
  rw [tokens_blanks_append closing.property, tokens_cons rfl (by decide)]
  exact fun h => by cases Option.some.inj h

theorem endsAt_trailing (trailing : Blanks) : Symbol.expression.EndsAt trailing.val := by
  have hnil : trailing.val ++ [] = trailing.val := List.append_nil _
  rw [← hnil]
  refine ⟨stops_blanks_append trailing Numeral.stops_nil, fun op _ => ?_⟩
  rw [tokens_blanks_append trailing.property, tokens_nil]
  exact fun h => by cases h

/-! ## The text tells derivations apart -/

theorem token_eq_of_text_eq {cs cs' : List Char} {t t' : Token} {ts ts' : List Token}
    (h : cs = cs') (ht : tokens cs = t :: ts) (ht' : tokens cs' = t' :: ts') : t = t' := by
  rw [h, ht'] at ht
  exact (List.cons.inj ht).1.symm

theorem head_literal_append (literal : Literal) :
    ∀ c ∈ (literal.val.text ++ r).head?, isBlank c = false := by
  obtain ⟨d, ds, htext, hd⟩ := literal.property.exists_text_eq_cons
  rw [htext]
  intro c hc
  obtain rfl := Option.some.inj hc
  exact isBlank_of_isDigit hd

/-- A minus sign in front of a term is told from a term without one. -/
theorem minus_append_inj {minus minus' : Option Blanks} {d d' : Derivation .term}
    (hr : Numeral.Stops r) (hr' : Numeral.Stops r')
    (h : minus.elim [] (fun blanks => blanks.val ++ ['-']) ++ (d.text ++ r) =
      minus'.elim [] (fun blanks => blanks.val ++ ['-']) ++ (d'.text ++ r')) :
    minus = minus' ∧ d.text ++ r = d'.text ++ r' := by
  have hminus (bs : Blanks) (cs : List Char) :
      (tokens (bs.val ++ ['-'] ++ cs)).head? = some (.operator .sub) := by
    rw [List.append_assoc]
    exact congrArg _ (tokens_operator bs .sub)
  cases minus with
  | none =>
    cases minus' with
    | none => exact ⟨rfl, h⟩
    | some bs' =>
      have := congrArg (fun cs => (tokens cs).head?) h
      exact absurd (this.trans (hminus bs' _)) (d.term_ne_operator hr .sub)
  | some bs =>
    cases minus' with
    | none =>
      have := congrArg (fun cs => (tokens cs).head?) h
      exact absurd (this.symm.trans (hminus bs _)) (d'.term_ne_operator hr' .sub)
    | some bs' =>
      rw [Option.elim_some, Option.elim_some, List.append_assoc, List.append_assoc] at h
      obtain ⟨rfl, -, hcs⟩ := blanks_cons_inj rfl rfl h
      exact ⟨rfl, hcs⟩

theorem operator_append_inj {bs bs' : Blanks} {op op' : Operator}
    (h : bs.val ++ op.symbol :: r = bs'.val ++ op'.symbol :: r') :
    bs = bs' ∧ op = op' ∧ r = r' := by
  obtain ⟨hbs, hsymbol, hrest⟩ := blanks_cons_inj (isBlank_symbol op) (isBlank_symbol op') h
  exact ⟨hbs, symbol_injective hsymbol, hrest⟩

/-- What ends a chain is no text that goes on with it. -/
theorem Symbol.EndsAt.ne_of_operator {op : Operator} {cs : List Char} {ts : List Token}
    (hr : s.EndsAt r) (hop : s.GoesOn op) (ht : tokens cs = .operator op :: ts) : r ≠ cs := by
  rintro rfl
  exact hr.ne_operator op hop (congrArg List.head? ht)

namespace Derivation

/-- Where a text ends what is derived from its symbol, the derivation is determined, and so is
    where it ends. -/
def Determined (d : Derivation s) : Prop :=
  ∀ {d' : Derivation s} {r r' : List Char}, s.EndsAt r → s.EndsAt r' →
    d.text ++ r = d'.text ++ r' → d = d' ∧ r = r'

/-! ### Chains -/

section Terms

variable {first : Derivation .term} {more : Derivation .terms}

/-- A term and those behind it are determined together. -/
theorem Determined.append_terms {first' : Derivation .term} {more' : Derivation .terms}
    (hfirst : first.Determined) (hmore : more.Determined) (hr : Symbol.terms.EndsAt r)
    (hr' : Symbol.terms.EndsAt r')
    (h : first.text ++ (more.text ++ r) = first'.text ++ (more'.text ++ r')) :
    first = first' ∧ more = more' ∧ r = r' := by
  obtain ⟨rfl, h₁⟩ := hfirst (more.endsAt_terms hr) (more'.endsAt_terms hr') h
  obtain ⟨rfl, rfl⟩ := hmore hr hr' h₁
  exact ⟨rfl, rfl, rfl⟩

theorem Determined.expression (minus : Option Blanks) (hfirst : first.Determined)
    (hmore : more.Determined) : (expression minus first more).Determined := by
  intro d' r r' hr hr' h
  cases d' with
  | expression minus' first' more' =>
    simp only [text, List.append_assoc] at h
    obtain ⟨rfl, h₁⟩ := minus_append_inj (more.endsAt_terms hr.terms).stops
      (more'.endsAt_terms hr'.terms).stops h
    obtain ⟨rfl, rfl, rfl⟩ := hfirst.append_terms hmore hr.terms hr'.terms h₁
    exact ⟨rfl, rfl⟩

theorem determined_noTerm : noTerm.Determined := by
  intro d' r r' hr hr' h
  cases d' with
  | noTerm => exact ⟨rfl, h⟩
  | andTerm => exact absurd h (hr.ne_of_operator trivial tokens_andTerm)

theorem Determined.andTerm (blanks : Blanks) {op : Operator} (hop : op.isAdditive = true)
    (hfirst : first.Determined) (hmore : more.Determined) :
    (andTerm blanks op hop first more).Determined := by
  intro d' r r' hr hr' h
  cases d' with
  | noTerm => exact absurd h.symm (hr'.ne_of_operator trivial tokens_andTerm)
  | andTerm blanks' op' hop' first' more' =>
    simp only [text, List.append_assoc, List.cons_append] at h
    obtain ⟨rfl, rfl, h₁⟩ := operator_append_inj h
    obtain ⟨rfl, rfl, rfl⟩ := hfirst.append_terms hmore hr hr' h₁
    exact ⟨rfl, rfl⟩

end Terms

section Factors

variable {first : Derivation .factor} {more : Derivation .factors}

/-- A factor and those behind it are determined together. -/
theorem Determined.append_factors {first' : Derivation .factor} {more' : Derivation .factors}
    (hfirst : first.Determined) (hmore : more.Determined) (hr : Symbol.factors.EndsAt r)
    (hr' : Symbol.factors.EndsAt r')
    (h : first.text ++ (more.text ++ r) = first'.text ++ (more'.text ++ r')) :
    first = first' ∧ more = more' ∧ r = r' := by
  obtain ⟨rfl, h₁⟩ := hfirst (more.endsAt_factors hr) (more'.endsAt_factors hr') h
  obtain ⟨rfl, rfl⟩ := hmore hr hr' h₁
  exact ⟨rfl, rfl, rfl⟩

theorem Determined.term (hfirst : first.Determined) (hmore : more.Determined) :
    (term first more).Determined := by
  intro d' r r' hr hr' h
  cases d' with
  | term first' more' =>
    simp only [text, List.append_assoc] at h
    obtain ⟨rfl, rfl, rfl⟩ := hfirst.append_factors hmore hr.factors hr'.factors h
    exact ⟨rfl, rfl⟩

theorem determined_noFactor : noFactor.Determined := by
  intro d' r r' hr hr' h
  cases d' with
  | noFactor => exact ⟨rfl, h⟩
  | andFactor _ _ hop' => exact absurd h (hr.ne_of_operator hop' tokens_andFactor)

theorem Determined.andFactor (blanks : Blanks) {op : Operator} (hop : op.isAdditive = false)
    (hfirst : first.Determined) (hmore : more.Determined) :
    (andFactor blanks op hop first more).Determined := by
  intro d' r r' hr hr' h
  cases d' with
  | noFactor => exact absurd h.symm (hr'.ne_of_operator hop tokens_andFactor)
  | andFactor blanks' op' hop' first' more' =>
    simp only [text, List.append_assoc, List.cons_append] at h
    obtain ⟨rfl, rfl, h₁⟩ := operator_append_inj h
    obtain ⟨rfl, rfl, rfl⟩ := hfirst.append_factors hmore hr hr' h₁
    exact ⟨rfl, rfl⟩

end Factors

/-! ### Factors

The first token says which form a factor has. -/

theorem determined_number (blanks : Blanks) (literal : Literal) :
    (number blanks literal).Determined := by
  intro d' r r' hr hr' h
  cases d' with
  | number blanks' literal' =>
    simp only [text, List.append_assoc] at h
    obtain ⟨rfl, h₁⟩ := blanks_append_inj (head_literal_append _) (head_literal_append _) h
    obtain ⟨hliteral, rfl⟩ := Numeral.text_append_inj literal.property.toWellFormed
      literal'.property.toWellFormed hr.stops hr'.stops h₁
    exact ⟨by rw [Subtype.ext hliteral], rfl⟩
  | var => cases token_eq_of_text_eq h (tokens_number hr.stops) tokens_var
  | group => cases token_eq_of_text_eq h (tokens_number hr.stops) tokens_group

theorem isBlank_var {c : Char} (hc : c = 'x' ∨ c = 'X') : isBlank c = false := by
  rcases hc with rfl | rfl <;> rfl

theorem determined_var (blanks : Blanks) {c : Char} (hc : c = 'x' ∨ c = 'X') :
    (var blanks c hc).Determined := by
  intro d' r r' hr hr' h
  cases d' with
  | number => cases token_eq_of_text_eq h tokens_var (tokens_number hr'.stops)
  | var blanks' c' hc' =>
    simp only [text, List.append_assoc, List.singleton_append] at h
    obtain ⟨rfl, rfl, rfl⟩ := blanks_cons_inj (isBlank_var hc) (isBlank_var hc') h
    exact ⟨rfl, rfl⟩
  | group => cases token_eq_of_text_eq h tokens_var tokens_group

theorem Determined.group (blanks closing : Blanks) {inner : Derivation .expression}
    (hinner : inner.Determined) : (group blanks inner closing).Determined := by
  intro d' r r' hr hr' h
  cases d' with
  | number => cases token_eq_of_text_eq h tokens_group (tokens_number hr'.stops)
  | var => cases token_eq_of_text_eq h tokens_group tokens_var
  | group blanks' inner' closing' =>
    simp only [text, List.append_assoc, List.cons_append, List.nil_append] at h
    obtain ⟨rfl, -, h₁⟩ := blanks_cons_inj rfl rfl h
    obtain ⟨rfl, h₂⟩ := hinner (endsAt_closing closing) (endsAt_closing closing') h₁
    obtain ⟨rfl, -, rfl⟩ := blanks_cons_inj rfl rfl h₂
    exact ⟨rfl, rfl⟩

/-! ### All derivations -/

/-- Every derivation is determined by its text. -/
theorem determined (d : Derivation s) : d.Determined := by
  induction d with
  | expression minus first more hfirst hmore => exact hfirst.expression minus hmore
  | noTerm => exact determined_noTerm
  | andTerm blanks op hop first more hfirst hmore => exact hfirst.andTerm blanks hop hmore
  | term first more hfirst hmore => exact hfirst.term hmore
  | noFactor => exact determined_noFactor
  | andFactor blanks op hop first more hfirst hmore => exact hfirst.andFactor blanks hop hmore
  | number blanks literal => exact determined_number blanks literal
  | var blanks c hc => exact determined_var blanks hc
  | group blanks inner closing hinner => exact hinner.group blanks closing

end Derivation

/-- A sentence is determined by its text. -/
theorem Sentence.text_injective : Function.Injective text := by
  intro s s' h
  obtain ⟨d, trailing⟩ := s
  obtain ⟨d', trailing'⟩ := s'
  obtain ⟨rfl, htrailing⟩ :=
    d.determined (endsAt_trailing trailing) (endsAt_trailing trailing') h
  rw [Subtype.ext htrailing]

end Derivatives.Grammar
