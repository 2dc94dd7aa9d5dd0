import Derivatives.Proofs.Expr.Progress
import Mathlib.Data.List.DropRight

/-!
# Why a text is refused

Where an operand has to come, what comes instead tells why the text is refused
(`Error.atOperand`); where one has come, it is whether parentheses are open
(`Error.atOperator`). Besides, a text is refused for the limits, i.e., for a number
that is not finite and for nesting too deep (`Progress.Refuses.classify`).

Both can be told from the characters in front of the place where reading stopped: an
operand has to come at the start, and behind an operator or an opening parenthesis
(`AwaitsOperand`), and as many parentheses are open as have not been closed again
(`openParentheses`). So the place where a line is refused determines the error
(`Cursor.readExpr_eq_error`).
-/

namespace Derivatives

open Number Grammar

/-! ## The errors at a place -/

/-- A character that an operand starts with. -/
def StartsOperand (c : Char) : Prop := c.isDigit ∨ c = 'x' ∨ c = 'X' ∨ c = '('

instance : DecidablePred StartsOperand := fun c =>
  inferInstanceAs (Decidable (c.isDigit ∨ c = 'x' ∨ c = 'X' ∨ c = '('))

/-- The error where an operand has to come, from the character there, if there is one. -/
def Error.atOperand : Option Char → Error
  | none => .unexpectedEndOfLine
  | some c =>
    if c = endOfLine then .unexpectedEndOfLine
    else if c = ')' then .extraRightParenthesis
    else if (Operator.ofSymbol? c).isSome then .misplacedOperator c
    else .unexpectedCharacter c

/-- The error where an operand has come, from the number of open parentheses. -/
def Error.atOperator (level : Nat) : Error :=
  if level = 0 then .extraData else .missingRightParenthesis

namespace Reading

variable {outer : List Pending} {pending : Pending} {lead : Lead} {term : Expr} {c : Char}
  {v : List Char} {err : Error}

theorem not_startsOperand_symbol (op : Operator) : ¬ StartsOperand op.symbol := by
  cases op <;> decide

theorem atOperand_symbol (op : Operator) :
    Error.atOperand (some op.symbol) = .misplacedOperator op.symbol := by
  cases op <;> rfl

/-- Where an operand has to come, a character is refused for what it is, unless it starts
    an operand that is beyond a limit. -/
theorem error_of_step_awaiting (h : (awaiting outer pending).step (.first c v) = .error err) :
    (∃ n, Token.first c v = .numeral n ∧ ¬ n.IsFinite ∧
      err = .numberOutOfRange (String.ofList n.text)) ∨
    (err = .nestedTooDeeply maxDepth ∧ outer.length = maxDepth ∧ c = '(') ∨
    err = .atOperand (some c) ∧ ¬ StartsOperand c := by
  -- A digit starts a numeral, of which the value decides; any other character is a token alone.
  rcases hd : c.isDigit with _ | _
  · rw [Token.first_of_not_isDigit hd] at h
    have hspelling := Token.spelling_ofChar c
    right
    cases htoken : Token.ofChar c with
    | numeral n => exact absurd htoken (Token.ofChar_ne_numeral c n)
    | var =>
      rw [htoken] at h
      cases h
    | operator op =>
      rw [htoken] at h hspelling
      cases hspelling
      rw [step] at h
      -- Only a minus sign that starts an expression is accepted.
      split at h
      · cases h
      · exact .inr ⟨(Except.error.inj h).symm.trans (atOperand_symbol op).symm,
          not_startsOperand_symbol op⟩
    | leftParenthesis =>
      rw [htoken, step] at h
      rw [htoken] at hspelling
      cases hspelling
      split at h
      · next hlength => exact .inl ⟨(Except.error.inj h).symm, hlength, rfl⟩
      · cases h
    | rightParenthesis =>
      rw [htoken] at h hspelling
      cases hspelling
      exact .inr ⟨(Except.error.inj h).symm, by decide⟩
    | other c' =>
      obtain ⟨rfl, hop, hx, hX, hleft, hright⟩ := Token.eq_of_ofChar_eq_other htoken
      rw [htoken, step] at h
      refine .inr ⟨(Except.error.inj h).symm.trans ?_, ?_⟩
      · rw [Error.atOperand, if_neg hright, hop]
        rfl
      · rw [StartsOperand, hd]
        simp [hx, hX, hleft]
  · have hliteral : (Numeral.scan (c :: v)).1.IsLiteral := Numeral.isLiteral_scan hd
    rw [Token.first_of_isDigit hd] at h ⊢
    by_cases hfinite : (Numeral.scan (c :: v)).1.IsFinite
    · rw [step_numeral hliteral hfinite] at h
      cases h
    · rw [step_numeral_of_not_isFinite hliteral hfinite] at h
      exact .inl ⟨_, rfl, hfinite, (Except.error.inj h).symm⟩

/-- Where an operand has come, a token is refused if it is no operator, nor a closing
    parenthesis of one that is open. -/
theorem error_of_step_complete (h : (complete outer lead term).step (.first c v) = .error err) :
    err = .atOperator outer.length ∧ Operator.ofSymbol? c = none ∧
      (0 < outer.length → c ≠ ')') := by
  refine ⟨?_, ?_, ?_⟩
  · generalize Token.first c v = t at h
    cases t with
    | operator op =>
      rw [step] at h
      split at h <;> cases h
    | rightParenthesis =>
      cases outer with
      | nil => exact (Except.error.inj h).symm
      | cons => cases h
    | numeral | var | leftParenthesis | other =>
      cases outer <;> exact (Except.error.inj h).symm
  · cases hop : Operator.ofSymbol? c with
    | none => rfl
    | some op =>
      obtain rfl := Operator.eq_symbol_of_ofSymbol? hop
      rw [Token.first_symbol, step] at h
      split at h <;> cases h
  · rintro hlt rfl
    cases outer with
    | nil => exact absurd hlt (Nat.lt_irrefl 0)
    | cons => cases h

theorem refusalPosition_of_ne_numeral {state : Reading} {l : Lexeme}
    (h : ∀ n, l.token ≠ .numeral n) : state.refusalPosition l = l.start := by
  unfold refusalPosition
  split
  · exact absurd rfl (h _)
  · rfl

/-- At the end, the depth of the expression is looked at if all is in order. -/
theorem error_of_finish_complete (h : (complete outer lead term).finish = .error err) :
    err = .nestedTooDeeply maxDepth ∨ err = .atOperator outer.length ∧ 0 < outer.length := by
  cases outer with
  | nil =>
    rw [finish] at h
    split at h
    · exact .inl (Except.error.inj h).symm
    · cases h
  | cons => exact .inr ⟨(Except.error.inj h).symm, Nat.succ_pos _⟩

end Reading

namespace Progress

variable {cs : List Char} {p : Progress cs} {refusal : Refusal}

/-- The errors that the state and the next character account for. -/
inductive IsMisplaced (p : Progress cs) : Error → Prop
  | operand {outer : List Pending} {pending : Pending} : p.state = .awaiting outer pending →
      (∀ c ∈ p.rest.head?, ¬ StartsOperand c) → IsMisplaced p (.atOperand p.rest.head?)
  | operator {outer : List Pending} {lead : Lead} {term : Expr} :
      p.state = .complete outer lead term → (outer.length = 0 → p.rest ≠ []) →
      (∀ c ∈ p.rest.head?, Operator.ofSymbol? c = none ∧ (0 < outer.length → c ≠ ')')) →
      IsMisplaced p (.atOperator outer.length)

/-- A text is refused for a number that is not finite, for nesting too deep, or else for
    the character where reading stops. -/
theorem Refuses.classify (h : p.Refuses refusal) :
    (∃ l ∈ Derivatives.lexemes 0 cs, ∃ n, l.token = .numeral n ∧ ¬ n.IsFinite ∧
      refusal = ⟨.numberOutOfRange (String.ofList n.text), l.stop⟩) ∨
    refusal.error = .nestedTooDeeply maxDepth ∨
    refusal.position = p.position ∧ p.IsMisplaced refusal.error := by
  -- Reading stops at the end or at a token, and what is due there is an operand or an operator.
  cases h with
  | atEnd hrest hfinish =>
    have hposition : cs.length = p.position := by
      rw [← p.position_add_length, hrest]
      rfl
    right
    cases hstate : p.state with
    | awaiting outer pending =>
      rw [hstate] at hfinish
      obtain rfl := Except.error.inj hfinish
      have := IsMisplaced.operand hstate (by rw [hrest]; exact fun c hc => by cases hc)
      rw [hrest] at this
      exact .inr ⟨hposition, this⟩
    | complete outer lead term =>
      rw [hstate] at hfinish
      refine (Reading.error_of_finish_complete hfinish).imp_right ?_
      rintro ⟨rfl, hlt⟩
      exact ⟨hposition, .operator hstate (fun h => absurd h (Nat.ne_of_gt hlt))
        (by rw [hrest]; exact fun c hc => by cases hc)⟩
  | @atLexeme err c v l hrest hl htoken hstart hstep =>
    have hhead : p.rest.head? = some c := by rw [hrest]; rfl
    cases hstate : p.state with
    | awaiting outer pending =>
      rw [hstate] at hstep
      rcases Reading.error_of_step_awaiting hstep with ⟨n, hn, hfinite, rfl⟩ | ⟨h, -⟩ | ⟨rfl, hc⟩
      · obtain ⟨token, start, stop⟩ := l
        obtain rfl : token = .numeral n := htoken.trans hn
        exact .inl ⟨_, p.mem_lexemes hl, n, rfl, hfinite, rfl⟩
      · exact .inr (.inl h)
      · -- What starts no operand is no digit either, so the token is refused where it starts.
        have hnumeral (n : Numeral) : l.token ≠ .numeral n := by
          rw [htoken, Token.first_of_not_isDigit (Bool.eq_false_iff.2 fun hd => hc (.inl hd))]
          exact Token.ofChar_ne_numeral c n
        have hmisplaced := IsMisplaced.operand hstate (by
          rw [hhead]
          rintro _ ⟨⟩
          exact hc)
        rw [hhead] at hmisplaced
        exact .inr (.inr
          ⟨(Reading.refusalPosition_of_ne_numeral hnumeral).trans hstart, hmisplaced⟩)
    | complete outer lead term =>
      rw [hstate] at hstep
      obtain ⟨rfl, hop, hright⟩ := Reading.error_of_step_complete hstep
      refine .inr (.inr ⟨hstart, .operator hstate (fun _ => ?_) ?_⟩)
      · rw [hrest]
        exact List.cons_ne_nil c v
      · rw [hhead]
        rintro _ ⟨⟩
        exact ⟨hop, hright⟩

theorem IsMisplaced.ne_invalidNumber {err : Error} (h : p.IsMisplaced err) (literal : String) :
    err ≠ .invalidNumber literal := by
  cases h with
  | operand =>
    unfold Error.atOperand
    split
    · exact Error.noConfusion
    · split_ifs <;> exact Error.noConfusion
  | operator =>
    unfold Error.atOperator
    split_ifs <;> exact Error.noConfusion

/-- Where a number starts, it has a digit. -/
theorem Refuses.ne_invalidNumber (h : p.Refuses refusal) (literal : String) :
    refusal.error ≠ .invalidNumber literal := by
  rcases h.classify with ⟨l, -, n, -, -, rfl⟩ | herr | ⟨-, hmisplaced⟩
  · exact Error.noConfusion
  · rw [herr]
    exact Error.noConfusion
  · exact hmisplaced.ne_invalidNumber literal

end Progress

/-! ## The characters in front of a place -/

/-- A character that an operand comes behind. -/
def OpensOperand (c : Char) : Prop := c = '(' ∨ (Operator.ofSymbol? c).isSome

instance : DecidablePred OpensOperand := fun c =>
  inferInstanceAs (Decidable (c = '(' ∨ (Operator.ofSymbol? c).isSome))

theorem not_opensOperand_of_isDigit {c : Char} (hd : c.isDigit) : ¬ OpensOperand c := by
  rintro (rfl | hop)
  · exact absurd hd (by decide)
  · obtain ⟨op, hop⟩ := Option.isSome_iff_exists.1 hop
    obtain rfl := Operator.eq_symbol_of_ofSymbol? hop
    cases op <;> exact absurd hd (by decide)

/-- A token that an operand comes behind. -/
def Token.OpensOperand : Token → Prop
  | .leftParenthesis | .operator _ => True
  | .numeral _ | .var | .rightParenthesis | .other _ => False

/-- The last character of a token tells whether an operand comes behind it. -/
theorem Token.Spelling.exists_getLast {t : Token} {w : List Char} (ht : t.Spelling w)
    (hother : ∀ c, t ≠ .other c) :
    ∃ c, w.getLast? = some c ∧ isBlank c = false ∧
      (Derivatives.OpensOperand c ↔ t.OpensOperand) := by
  cases ht with
  | @numeral n hn =>
    have hne : n.text ≠ [] := by
      obtain ⟨c, cs, htext, -⟩ := hn.exists_text_eq_cons
      rw [htext]
      exact List.cons_ne_nil c cs
    have hlast := List.getLast?_eq_some_getLast hne
    refine ⟨_, hlast, ?_⟩
    rcases hn.getLast_text hlast with hd | hpoint
    · exact ⟨isBlank_of_isDigit hd, iff_of_false (not_opensOperand_of_isDigit hd) id⟩
    · rw [hpoint]
      exact ⟨rfl, iff_of_false (by decide) id⟩
  | var hc => rcases hc with rfl | rfl <;> exact ⟨_, rfl, rfl, iff_of_false (by decide) id⟩
  | operator op => cases op <;> exact ⟨_, rfl, rfl, iff_of_true (by decide) trivial⟩
  | leftParenthesis => exact ⟨_, rfl, rfl, iff_of_true (by decide) trivial⟩
  | rightParenthesis => exact ⟨_, rfl, rfl, iff_of_false (by decide) id⟩
  | other c => exact absurd rfl (hother c)

/-- The characters of a text in front of a place, without the blanks at their end. -/
def textBefore (cs : List Char) (position : Nat) : List Char :=
  (cs.take position).rdropWhile isBlank

/-- An operand has to come at a place of a text: in front of it, there is nothing but
    blanks, or a character that an operand comes behind, unless that is part of a number. -/
def AwaitsOperand (cs : List Char) (position : Nat) : Prop :=
  ∀ c ∈ (textBefore cs position).getLast?, OpensOperand c ∧
    ∀ l ∈ lexemes 0 cs, ∀ n, l.token = .numeral n →
      ¬ (l.start < (textBefore cs position).length ∧ (textBefore cs position).length ≤ l.stop)

/-- The parentheses open behind a character, from those open in front of it. -/
def countParenthesis (level : Nat) (c : Char) : Nat :=
  if c = '(' then level + 1 else if c = ')' then level - 1 else level

/-- The number of parentheses opened in a text that are not closed again. -/
def openParentheses (cs : List Char) : Nat := cs.foldl countParenthesis 0

theorem Grammar.Blanks.ne_parenthesis (blanks : Blanks) :
    ∀ c ∈ blanks.val, c ≠ '(' ∧ c ≠ ')' := by
  intro c hc
  have := blanks.property c hc
  constructor <;> rintro rfl <;> exact absurd this (by decide)

theorem Number.Numeral.WellFormed.ne_parenthesis {n : Numeral} (hn : n.WellFormed) :
    ∀ c ∈ n.text, c ≠ '(' ∧ c ≠ ')' := by
  intro c hc
  have := hn.mem_text hc
  constructor <;> rintro rfl <;> exact absurd this (by decide)

namespace Reading

/-- An operand has to come next. -/
def IsAwaiting : Reading → Prop
  | awaiting _ _ => True
  | complete _ _ _ => False

/-- The number of groups around. -/
def level : Reading → Nat
  | awaiting outer _ | complete outer _ _ => outer.length

variable {u w : List Char} {ls : List Lexeme} {state next : Reading} {t : Token}

/-- Behind a token, an operand has to come or has come, whatever came in front of it. -/
theorem isAwaiting_iff_of_step (hs : state.step t = .ok next) :
    next.IsAwaiting ↔ t.OpensOperand := by
  cases Steps.of_step hs <;> rfl

theorem foldl_countParenthesis (hw : ∀ c ∈ w, c ≠ '(' ∧ c ≠ ')') (level : Nat) :
    w.foldl countParenthesis level = level := by
  induction w with
  | nil => rfl
  | cons c w ih =>
    rw [List.forall_mem_cons] at hw
    rw [List.foldl_cons, countParenthesis, if_neg hw.1.1, if_neg hw.1.2]
    exact ih hw.2

theorem foldl_countParenthesis_blanks (blanks : Blanks) (level : Nat) :
    blanks.val.foldl countParenthesis level = level :=
  foldl_countParenthesis blanks.ne_parenthesis level

theorem foldl_countParenthesis_text {n : Numeral} (hn : n.WellFormed) (level : Nat) :
    n.text.foldl countParenthesis level = level :=
  foldl_countParenthesis hn.ne_parenthesis level

/-- The parentheses that are open are the groups around. -/
theorem foldl_countParenthesis_of_step (hs : state.step t = .ok next) (ht : t.Spelling w) :
    w.foldl countParenthesis state.level = next.level := by
  cases Steps.of_step hs with
  | @numeral outer pending n =>
    cases ht with
    | numeral hn => exact foldl_countParenthesis_text hn.toWellFormed _
  | var =>
    cases ht with
    | var hc => rcases hc with rfl | rfl <;> rfl
  | minus | leftParenthesis | rightParenthesis =>
    cases ht
    rfl
  | @additive outer lead term op | @multiplicative outer lead term op =>
    cases ht
    cases op <;> rfl

/-! ## The characters in front of a state -/

variable {l : Lexeme}

theorem Reached.isBlank_getLast (h : Reached u ls state) : ∀ c ∈ u.getLast?, isBlank c = false := by
  cases h with
  | initial => exact fun c hc => by cases hc
  | step _ blanks ht hs =>
    obtain ⟨c, hc, hblank, -⟩ := ht.exists_getLast (ne_other_of_step hs)
    rw [← List.append_assoc, List.getLast?_append, hc]
    rintro _ ⟨⟩
    exact hblank

theorem Reached.isAwaiting_iff (h : Reached u ls state) :
    state.IsAwaiting ↔ ∀ c ∈ u.getLast?, OpensOperand c := by
  cases h with
  | initial => exact iff_of_true trivial fun c hc => by cases hc
  | step _ blanks ht hs =>
    obtain ⟨c, hc, -, hopens⟩ := ht.exists_getLast (ne_other_of_step hs)
    rw [isAwaiting_iff_of_step hs, ← hopens, ← List.append_assoc, List.getLast?_append, hc,
      Option.some_or]
    exact ⟨fun h _ hd => Option.some.inj hd ▸ h, fun h => h c rfl⟩

/-- No number is the last token in front of an operand. -/
theorem Reached.stop_lt (h : Reached u ls state) (hstate : state.IsAwaiting) (hl : l ∈ ls)
    {n : Numeral} (hn : l.token = .numeral n) : l.stop < u.length := by
  cases h with
  | initial => cases hl
  | @step _ w _ _ _ t hreached blanks ht hs =>
    obtain ⟨c, hc, -⟩ := ht.exists_getLast (ne_other_of_step hs)
    have hw : 0 < w.length := List.length_pos_iff.2 fun h => by
      rw [h] at hc
      cases hc
    rcases List.mem_append.1 hl with hl | hl
    · have := hreached.stop_le l hl
      rw [List.length_append, List.length_append]
      omega
    · obtain rfl := List.mem_singleton.1 hl
      obtain rfl := hn
      obtain ⟨outer, lead, term, rfl⟩ := exists_complete_of_step_numeral hs
      cases hstate

theorem Reached.openParentheses_eq (h : Reached u ls state) : openParentheses u = state.level := by
  induction h with
  | initial => rfl
  | step _ blanks ht hs ih =>
    rw [openParentheses] at ih ⊢
    rw [List.foldl_append, List.foldl_append, ih, foldl_countParenthesis_blanks,
      foldl_countParenthesis_of_step hs ht]

end Reading

namespace Progress

variable {cs : List Char} (p : Progress cs)

theorem textBefore_position : textBefore cs p.position = p.read := by
  have hblanks : ∀ c ∈ p.blanks.val.reverse, isBlank c := fun c hc =>
    p.blanks.property c (List.mem_reverse.1 hc)
  have hread : ∀ c ∈ p.read.reverse.head?, isBlank c = false := by
    rw [List.head?_reverse]
    exact p.reached.isBlank_getLast
  rw [textBefore, p.take_position, List.rdropWhile, List.reverse_append,
    Numeral.dropWhile_append_of_head hblanks hread, List.reverse_reverse]

theorem awaitsOperand_position : AwaitsOperand cs p.position ↔ p.state.IsAwaiting := by
  rw [AwaitsOperand, p.textBefore_position]
  refine ⟨fun h => p.reached.isAwaiting_iff.2 fun c hc => (h c hc).1, fun h c hc =>
    ⟨p.reached.isAwaiting_iff.1 h c hc, fun l hl n hn hin => ?_⟩⟩
  rw [p.lexemes_eq, List.mem_append] at hl
  rcases hl with hl | hl
  · exact Nat.not_le.2 (p.reached.stop_lt h hl hn) hin.2
  · have := (le_of_mem_lexemes hl).1
    omega

theorem openParentheses_position : openParentheses (cs.take p.position) = p.state.level := by
  rw [p.take_position, openParentheses, List.foldl_append, Reading.foldl_countParenthesis_blanks]
  exact p.reached.openParentheses_eq

end Progress

/-- The place where a line is refused determines the error, unless it is refused for a
    number that is not finite, right behind that number, or for nesting too deep. -/
theorem Cursor.readExpr_eq_error {line : String} {err : Error} {c : Cursor}
    (h : (Cursor.ofLine line).readExpr = (.error err, c)) :
    let cs := lineCharacters line
    let next := cs[c.position]?
    let level := openParentheses (cs.take c.position)
    c.position ≤ cs.length ∧
    ((∃ l ∈ lexemes 0 cs, ∃ n, l.token = .numeral n ∧ ¬ n.IsFinite ∧ l.stop = c.position ∧
        err = .numberOutOfRange (String.ofList n.text)) ∨
      err = .nestedTooDeeply maxDepth ∨
      (∀ d ∈ next, isBlank d = false) ∧
      (AwaitsOperand cs c.position →
        err = .atOperand next ∧ ∀ d ∈ next, ¬ StartsOperand d) ∧
      (¬ AwaitsOperand cs c.position →
        err = .atOperator level ∧ (level = 0 → next.isSome) ∧
          ∀ d ∈ next, Operator.ofSymbol? d = none ∧ (0 < level → d ≠ ')'))) ∧
    ∀ literal, err ≠ .invalidNumber literal := by
  intro cs next level
  obtain ⟨p, hp⟩ := Cursor.exists_refuses h
  refine ⟨hp.position_le, ?_, hp.ne_invalidNumber⟩
  rcases hp.classify with ⟨l, hl, n, hn, hfinite, hrefusal⟩ | hdepth | ⟨hposition, hmisplaced⟩
  · obtain ⟨rfl, hstop⟩ := Refusal.mk.inj hrefusal
    exact .inl ⟨l, hl, n, hn, hfinite, hstop.symm, rfl⟩
  · exact .inr (.inl hdepth)
  · -- The state is told from the characters read so far, and its error from the next one.
    change c.position = p.position at hposition
    simp only [next, level, cs, hposition, p.getElem?_position, p.awaitsOperand_position,
      p.openParentheses_position]
    refine .inr (.inr ⟨p.isBlank_head, fun hstate => ?_, fun hstate => ?_⟩)
    · cases hmisplaced with
      | operand hs hstarts => exact ⟨rfl, hstarts⟩
      | operator hs =>
        rw [hs] at hstate
        cases hstate
    · cases hmisplaced with
      | operand hs =>
        rw [hs] at hstate
        exact absurd trivial hstate
      | operator hs hrest hnext =>
        rw [hs]
        refine ⟨rfl, fun hzero => ?_, hnext⟩
        rw [List.isSome_head?]
        exact hrest hzero

/-- In `2 * (x + )`, the closing parenthesis stands where an operand has to come. -/
theorem Cursor.readExpr_eq_error_extraRightParenthesis :
    (Cursor.ofLine "2 * (x + )\n").readExpr =
      (.error .extraRightParenthesis, (Cursor.ofLine "2 * (x + )\n").advanceBy 9) ∧
    AwaitsOperand (lineCharacters "2 * (x + )\n") 9 := by
  have hread : Expr.read (lineCharacters "2 * (x + )\n") =
      .error ⟨.extraRightParenthesis, 9⟩ := by decide +kernel
  have h := Cursor.readExpr_of_error (c := Cursor.ofLine "2 * (x + )\n") hread
  refine ⟨h, ?_⟩
  obtain ⟨-, ⟨l, -, n, -, -, -, herr⟩ | herr | ⟨-, -, hoperator⟩, -⟩ := Cursor.readExpr_eq_error h
  · cases herr
  · cases herr
  · by_contra hawaits
    have herr := (hoperator hawaits).1
    unfold Error.atOperator at herr
    split at herr <;> cases herr

end Derivatives
