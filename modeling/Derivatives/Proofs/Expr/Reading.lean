import Derivatives.Formula
import Derivatives.Proofs.Token

/-!
# Reading a text

Whether a text is read as an expression is decided by the state after its tokens
(`Reading.after`, `Expr.parse_eq`); where the tokens stand only matters to
where reading is refused. The state after a text is found piece by piece, as its
tokens are.
-/

namespace Derivatives

open Number

variable {c : Char} {cs bs rest : List Char} {e : Expr}

namespace Reading

variable {state next : Reading}

/-- The state after a text, if each of its tokens can come next. -/
def after (state : Reading) (cs : List Char) : Except Error Reading :=
  (tokens cs).foldlM step state

/-! ## The state after a text, piece by piece -/

theorem after_of_blank (h : tokens cs = []) : state.after cs = .ok state := by
  rw [after, h]
  rfl

theorem after_of_step {t : Token} (h : tokens cs = t :: tokens rest)
    (hs : state.step t = .ok next) : state.after cs = next.after rest := by
  rw [after, h, List.foldlM_cons, hs]
  rfl

theorem after_of_error {t : Token} {err : Error} (h : tokens cs = t :: tokens rest)
    (hs : state.step t = .error err) : state.after cs = .error err := by
  rw [after, h, List.foldlM_cons, hs]
  rfl

/-- A literal behind blanks is one step. -/
theorem after_blanks_literal {n : Numeral} (hbs : ∀ c ∈ bs, isBlank c) (hn : n.IsLiteral)
    (hrest : Numeral.Stops rest) (hs : state.step (.numeral n) = .ok next) :
    state.after (bs ++ (n.text ++ rest)) = next.after rest :=
  after_of_step ((tokens_blanks_append hbs).trans (tokens_literal_append hn hrest)) hs

/-- Another character behind blanks is one step. -/
theorem after_blanks_cons (hbs : ∀ c ∈ bs, isBlank c) (hc : isBlank c = false)
    (hd : c.isDigit = false) (hs : state.step (.ofChar c) = .ok next) :
    state.after (bs ++ c :: cs) = next.after cs :=
  after_of_step ((tokens_blanks_append hbs).trans (tokens_cons hc hd)) hs

/-- An operator behind blanks is one step. -/
theorem after_blanks_operator {op : Operator} (hbs : ∀ c ∈ bs, isBlank c)
    (hs : state.step (.operator op) = .ok next) :
    state.after (bs ++ op.symbol :: cs) = next.after cs := by
  cases op <;> exact after_blanks_cons hbs rfl (by decide) hs

/-! ## The steps that are taken -/

variable {outer : List Pending} {pending : Pending} {lead : Lead} {term : Expr} {op : Operator}

theorem step_numeral {n : Numeral} (hn : n.IsLiteral) (hfinite : n.IsFinite) :
    (awaiting outer pending).step (.numeral n) =
      .ok (afterOperand outer pending (.constant n.double)) := by
  have hvalue : n.value = .ok n.double := (Numeral.value_eq_ok_iff hn).2 ⟨hfinite, rfl⟩
  rw [step, hvalue]
  rfl

theorem step_numeral_of_not_isFinite {n : Numeral} (hn : n.IsLiteral) (h : ¬ n.IsFinite) :
    (awaiting outer pending).step (.numeral n) =
      .error (.numberOutOfRange (String.ofList n.text)) := by
  have hvalue := (Numeral.value_eq_error_iff hn).2 ⟨h, rfl⟩
  rw [step, hvalue]
  rfl

theorem step_minus :
    (awaiting outer {}).step (.operator .sub) = .ok (awaiting outer { lead := .minus }) := by
  rw [step, if_pos ⟨rfl, rfl⟩]

theorem step_leftParenthesis (h : outer.length < maxDepth) :
    (awaiting outer pending).step .leftParenthesis = .ok (awaiting (pending :: outer) {}) :=
  if_neg (Nat.ne_of_lt h)

theorem step_of_isAdditive (hop : op.isAdditive = true) :
    (complete outer lead term).step (.operator op) =
      .ok (awaiting outer { lead := .sum (lead.append term) op }) := by
  rw [step, if_pos hop]

theorem step_of_not_isAdditive (hop : op.isAdditive = false) :
    (complete outer lead term).step (.operator op) =
      .ok (awaiting outer { lead, product := some (term, op) }) := by
  rw [step, if_neg (by rw [hop]; exact Bool.false_ne_true)]

/-- The steps there are: from a state, through a token, to the next state. -/
inductive Steps : Reading → Token → Reading → Prop
  | numeral {outer : List Pending} {pending : Pending} {n : Numeral} {value : Float} :
      n.value = .ok value →
      Steps (awaiting outer pending) (.numeral n) (afterOperand outer pending (.constant value))
  | var {outer : List Pending} {pending : Pending} :
      Steps (awaiting outer pending) .var (afterOperand outer pending .var)
  | minus {outer : List Pending} :
      Steps (awaiting outer {}) (.operator .sub) (awaiting outer { lead := .minus })
  | leftParenthesis {outer : List Pending} {pending : Pending} : outer.length ≠ maxDepth →
      Steps (awaiting outer pending) .leftParenthesis (awaiting (pending :: outer) {})
  | additive {outer : List Pending} {lead : Lead} {term : Expr} {op : Operator} :
      op.isAdditive = true →
      Steps (complete outer lead term) (.operator op)
        (awaiting outer { lead := .sum (lead.append term) op })
  | multiplicative {outer : List Pending} {lead : Lead} {term : Expr} {op : Operator} :
      op.isAdditive = false →
      Steps (complete outer lead term) (.operator op)
        (awaiting outer { lead, product := some (term, op) })
  | rightParenthesis {outer : List Pending} {pending : Pending} {lead : Lead} {term : Expr} :
      Steps (complete (pending :: outer) lead term) .rightParenthesis
        (afterOperand outer pending (lead.append term))

theorem Steps.of_step {t : Token} (h : state.step t = .ok next) : Steps state t next := by
  cases state with
  | awaiting outer pending =>
    cases t with
    | numeral n =>
      rw [step] at h
      cases hvalue : n.value with
      | error err =>
        rw [hvalue] at h
        cases h
      | ok value =>
        rw [hvalue] at h
        obtain rfl := Except.ok.inj h
        exact .numeral hvalue
    | var =>
      obtain rfl := Except.ok.inj h
      exact .var
    | operator op =>
      -- In front of an operand, that is the minus sign of the first term of a group.
      rw [step] at h
      split at h
      · next hop =>
        obtain ⟨rfl, rfl⟩ := hop
        obtain rfl := Except.ok.inj h
        exact .minus
      · cases h
    | leftParenthesis =>
      rw [step] at h
      split at h
      · cases h
      · next hne =>
        obtain rfl := Except.ok.inj h
        exact .leftParenthesis hne
    | rightParenthesis | other => cases h
  | complete outer lead term =>
    cases t with
    | operator op =>
      rcases hop : op.isAdditive with _ | _
      · rw [step_of_not_isAdditive hop] at h
        obtain rfl := Except.ok.inj h
        exact .multiplicative hop
      · rw [step_of_isAdditive hop] at h
        obtain rfl := Except.ok.inj h
        exact .additive hop
    | rightParenthesis =>
      cases outer with
      | nil => cases h
      | cons pending outer =>
        obtain rfl := Except.ok.inj h
        exact .rightParenthesis
    | numeral | var | leftParenthesis | other => cases outer <;> cases h

/-! ## What is read -/

/-- What is read, but for the place of a refusal, depends on the tokens only. -/
theorem mapError_run (state : Reading) (length : Nat) (ls : List Lexeme) :
    (state.run length ls).mapError Refusal.error =
      (ls.map Lexeme.token).foldlM step state >>= finish := by
  induction ls generalizing state with
  | nil =>
    rw [run, List.map_nil, List.foldlM_nil]
    change _ = state.finish
    cases state.finish <;> rfl
  | cons l ls ih =>
    rw [run, List.map_cons, List.foldlM_cons]
    cases state.step l.token with
    | error err => rfl
    | ok next => exact ih next

end Reading

/-- What is read on a line is what the state after its characters gives. -/
theorem Expr.parse_eq (line : String) :
    Expr.parse line = Reading.initial.after (lineCharacters line) >>= Reading.finish := by
  rw [Reading.after, tokens, ← Reading.mapError_run _ (lineCharacters line).length]
  change (Cursor.readExpr ⟨[], lineCharacters line⟩).1 =
    (Expr.read (lineCharacters line)).mapError _
  rw [Cursor.readExpr]
  cases Expr.read (lineCharacters line) <;> rfl

theorem Expr.parse_eq_ok_iff {line : String} :
    Expr.parse line = .ok e ↔
      ∃ last, Reading.initial.after (lineCharacters line) = .ok last ∧ last.finish = .ok e := by
  rw [Expr.parse_eq]
  cases Reading.initial.after (lineCharacters line) with
  | error err => simp [bind, Except.bind]
  | ok last => simp [bind, Except.bind]

end Derivatives
