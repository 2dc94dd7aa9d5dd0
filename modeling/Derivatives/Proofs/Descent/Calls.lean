import Derivatives.Proofs.Descent.Reading
import Derivatives.Proofs.Expr.Size
import Derivatives.Proofs.Graph.PostOrder

/-!
# Calls for a factor

A call for a factor passes the token that it meets, or it is refused at once
(`Descent.gains_factor`). So the calls on a line take their tokens one behind the other
(`Descent.Apart`), and there are no more of them than characters, but for one that is refused at
once, behind which no call is made (`Descent.Accounted`). This is what every call keeps to,
however deep it goes (`Descent.consumes`), and none of them moves the cursor back
(`Descent.Call.spends`).

With what a line with an expression is made of (`Expr.size_of_parse`), this is how the work on
a line, and what comes of it, is bounded by its characters (`Descent.line_linear`).
-/

namespace Derivatives

open Number

/-- The number of characters of the token that a text starts with, or one at the end. -/
def firstWidth : List Char → Nat
  | [] => 1
  | c :: cs => (Token.first c cs).width

/-- The position behind the token that a call for a factor meets on a line. -/
def FactorCall.stop (cs : List Char) (call : FactorCall) : Nat :=
  call.position + firstWidth (cs.drop call.position)

/-- In front of a position on a line, a call for a factor has passed the token that it met. -/
structure FactorCall.Passed (cs : List Char) (position : Nat) (call : FactorCall) : Prop where
  /-- The token starts an operand. -/
  starts : ∃ c, cs[call.position]? = some c ∧ StartsOperand c
  /-- It has one character at least. -/
  lt_stop : call.position < call.stop cs
  /-- All of its characters have been passed. -/
  stop_le : call.stop cs ≤ position

section Stop

variable {c : Char} {cs : List Char} {calls : List FactorCall} {n : Nat}

theorem firstWidth_of_isDigit (hd : c.isDigit) :
    firstWidth (c :: cs) = (Numeral.scan (c :: cs)).1.text.length :=
  congrArg Token.width (Token.first_of_isDigit hd)

theorem firstWidth_of_not_isDigit (hd : c.isDigit = false) : firstWidth (c :: cs) = 1 := by
  rw [firstWidth, Token.first_of_not_isDigit hd]
  cases htoken : Token.ofChar c with
  | numeral n => exact absurd htoken (Token.ofChar_ne_numeral c n)
  | _ => rfl

theorem firstWidth_pos (cs : List Char) : 0 < firstWidth cs := by
  cases cs with
  | nil => exact Nat.one_pos
  | cons c cs =>
    rcases hd : c.isDigit with _ | _
    · rw [firstWidth_of_not_isDigit hd]
      exact Nat.one_pos
    · rw [firstWidth_of_isDigit hd]
      exact Numeral.length_text_scan_pos cs hd

theorem firstWidth_le (c : Char) (cs : List Char) : firstWidth (c :: cs) ≤ (c :: cs).length := by
  rcases hd : c.isDigit with _ | _
  · rw [firstWidth_of_not_isDigit hd]
    exact Nat.succ_pos _
  · rw [firstWidth_of_isDigit hd, ← Numeral.length_scan (c :: cs)]
    exact Nat.le_add_right _ _

theorem FactorCall.Passed.mono {call : FactorCall} {m : Nat} (h : call.Passed cs m) (hmn : m ≤ n) :
    call.Passed cs n :=
  ⟨h.starts, h.lt_stop, Nat.le_trans h.stop_le hmn⟩

/-- No more calls than characters have passed their tokens, if no two tokens overlap. -/
theorem length_le_of_pairwise (hpassed : ∀ call ∈ calls, call.Passed cs n)
    (hpairwise : calls.Pairwise fun later call => call.stop cs ≤ later.position) :
    calls.length ≤ n := by
  -- By induction on the calls: those in front of the last one end where its token starts.
  induction calls generalizing n with
  | nil => exact Nat.zero_le n
  | cons call calls ih =>
    rw [List.pairwise_cons] at hpairwise
    obtain ⟨hlast, hcalls⟩ := List.forall_mem_cons.1 hpassed
    have hlength : calls.length ≤ call.position := by
      refine ih (fun call' hcall' => ?_) hpairwise.2
      obtain ⟨hstarts, hlt, -⟩ := hcalls call' hcall'
      exact ⟨hstarts, hlt, hpairwise.1 call' hcall'⟩
    have hlt := hlast.lt_stop
    have hle := hlast.stop_le
    rw [List.length_cons]
    omega

end Stop

namespace Descent

/-- All calls for a factor so far have passed the tokens they met, one behind the other. -/
structure Apart (s : Descent) : Prop where
  passed : ∀ call ∈ s.calls, call.Passed s.cursor.characters s.cursor.position
  pairwise : s.calls.Pairwise fun later call => call.stop s.cursor.characters ≤ later.position

/-- The way from one state to a later one, on which calls for a factor pass the tokens they
    meet. -/
structure Passes (k : Nat) (s s' : Descent) : Prop where
  advances : s.Advances s'
  /-- The cursor moves on by `k` characters at least. -/
  length_le : s'.cursor.after.length + k ≤ s.cursor.after.length
  /-- The calls on the way come behind those before. -/
  apart : s.Apart → s'.Apart

/-- The way from one state to a later one where the text is refused. -/
inductive Fails (k : Nat) (s : Descent) : Descent → Prop
  /-- A call for a factor is refused at once, and nothing has been passed but blanks. -/
  | atOnce : Fails k s s.skipBlanks.note
  /-- A call for a factor is refused at once, but `k` characters have been passed. -/
  | atCall {t : Descent} : s.Passes k t → Fails k s t.note
  /-- What comes behind `k` characters is refused. -/
  | behind {t : Descent} : s.Passes k t → Fails k s t

variable {s t u : Descent} {j k : Nat}

/-! ## The way from one state to the next -/

theorem Advances.position_add_le (h : s.Advances t)
    (hlength : t.cursor.after.length + k ≤ s.cursor.after.length) :
    s.cursor.position + k ≤ t.cursor.position := by
  have hs := s.cursor.length_characters
  have ht := t.cursor.length_characters
  rw [h.characters_eq] at ht
  omega

theorem Advances.position_le (h : s.Advances t) : s.cursor.position ≤ t.cursor.position :=
  h.position_add_le (k := 0) h.length_le

theorem Passes.of_advances (h : s.Advances t) (hcalls : t.calls = s.calls)
    (hlength : t.cursor.after.length + k ≤ s.cursor.after.length) : s.Passes k t where
  advances := h
  length_le := hlength
  apart := fun hs => by
    constructor
    · rw [hcalls, h.characters_eq]
      exact fun call hcall => (hs.passed call hcall).mono h.position_le
    · rw [hcalls, h.characters_eq]
      exact hs.pairwise

theorem Passes.trans (h : s.Passes j t) (h' : t.Passes k u) : s.Passes (j + k) u where
  advances := h.advances.trans h'.advances
  length_le := by
    have hle := h.length_le
    have hle' := h'.length_le
    omega
  apart := h'.apart ∘ h.apart

theorem Passes.mono (h : s.Passes k t) (hjk : j ≤ k) : s.Passes j t where
  advances := h.advances
  length_le := Nat.le_trans (Nat.add_le_add_left hjk _) h.length_le
  apart := h.apart

theorem passes_refl (s : Descent) : s.Passes 0 s := .of_advances (.refl s) rfl (Nat.le_refl _)

theorem passes_skipBlanks (s : Descent) : s.Passes 0 s.skipBlanks :=
  .of_advances s.advances_skipBlanks rfl s.advances_skipBlanks.length_le

theorem passes_add (s : Descent) (node : Node Nat) :
    s.Passes 0 { s with graph := (s.graph.add node).1 } :=
  .of_advances (s.advances_add node) rfl (Nat.le_refl _)

/-- A call for a factor passes the token that it meets, if that starts an operand. -/
theorem passes_of_note {c : Char} {cs : List Char} (hafter : s.cursor.after = c :: cs)
    (hstarts : StartsOperand c) (hadvances : s.note.Advances t)
    (hcursor : t.cursor = s.cursor.advanceBy (firstWidth s.cursor.after))
    (hcalls : t.calls = s.note.calls) : s.Passes (firstWidth s.cursor.after) t := by
  have hle : firstWidth s.cursor.after ≤ s.cursor.after.length := hafter ▸ firstWidth_le c cs
  have hstop : FactorCall.stop s.cursor.characters ⟨s.cursor.position, s.nesting⟩ =
      t.cursor.position := by
    rw [FactorCall.stop, s.cursor.drop_position, hcursor, Cursor.position_advanceBy,
      Nat.min_eq_left hle]
  have hget : s.cursor.characters[s.cursor.position]? = some c := by
    rw [← List.head?_drop, s.cursor.drop_position, hafter]
    rfl
  refine ⟨s.advances_note.trans hadvances, ?_, fun hs => ⟨?_, ?_⟩⟩
  · rw [hcursor]
    change (s.cursor.after.drop _).length + _ ≤ _
    rw [List.length_drop, Nat.sub_add_cancel hle]
  · rw [hcalls, hadvances.characters_eq]
    refine List.forall_mem_cons.2 ⟨⟨⟨c, hget, hstarts⟩, ?_, Nat.le_of_eq hstop⟩, ?_⟩
    · exact Nat.lt_add_of_pos_right (firstWidth_pos _)
    · exact fun call hcall => (hs.passed call hcall).mono hadvances.position_le
  · rw [hcalls, hadvances.characters_eq]
    exact List.pairwise_cons.2 ⟨fun call hcall => (hs.passed call hcall).stop_le, hs.pairwise⟩

/-- What is refused at once, but behind characters that have been passed, is refused at a later
    call. -/
theorem Fails.of_passes (h : t.Fails 0 u) (hs : s.Passes k t) : s.Fails k u := by
  cases h with
  | atOnce => exact .atCall (hs.trans t.passes_skipBlanks)
  | atCall ht => exact .atCall (hs.trans ht)
  | behind ht => exact .behind (hs.trans ht)

theorem Fails.mono (h : s.Fails k t) (hjk : j ≤ k) : s.Fails j t := by
  cases h with
  | atOnce => exact .atOnce
  | atCall ht => exact .atCall (ht.mono hjk)
  | behind ht => exact .behind (ht.mono hjk)

theorem Fails.advances (h : s.Fails k t) : s.Advances t := by
  cases h with
  | atOnce => exact s.advances_skipBlanks.trans (advances_note _)
  | atCall ht => exact ht.advances.trans (advances_note _)
  | behind ht => exact ht.advances

/-! ## Calls -/

/-- The outcome of a call that passes `k` characters at least, unless it is refused at once
    where it calls for its first factor. -/
def Outcome.Spends (k : Nat) (s : Descent) (o : Outcome) : Prop :=
  o.Satisfies True (fun _ t => s.Passes k t) (fun _ t => s.Fails k t)

section Spends

variable {o : Outcome} {next : Nat → Descent → Outcome}

theorem Outcome.Spends.mono (h : o.Spends k s) (hjk : j ≤ k) : o.Spends j s :=
  Satisfies.imp h (fun _ _ ht => ht.mono hjk) fun _ _ ht => ht.mono hjk

theorem Outcome.Spends.of_passes (h : o.Spends j t) (hs : s.Passes k t) : o.Spends k s :=
  Satisfies.imp (h.mono (Nat.zero_le j)) (fun _ _ ht => hs.trans ht) fun _ _ ht => ht.of_passes hs

theorem Outcome.Spends.of_skipBlanks (h : o.Spends k s.skipBlanks) : o.Spends k s := by
  have hblanks {t : Descent} (ht : s.skipBlanks.Passes k t) : s.Passes k t := by
    have := s.passes_skipBlanks.trans ht
    rwa [Nat.zero_add] at this
  refine Satisfies.imp h (fun _ _ ht => hblanks ht) fun _ t ht => ?_
  cases ht with
  | atOnce =>
    rw [skipBlanks_skipBlanks]
    exact .atOnce
  | atCall ht => exact .atCall (hblanks ht)
  | behind ht => exact .behind (hblanks ht)

theorem Outcome.Spends.andThen (h : o.Spends k s) (hnext : ∀ place t, (next place t).Spends 0 t) :
    (o.andThen next).Spends k s :=
  Satisfies.andThen h (fun place t ht => (hnext place t).of_passes ht) fun _ _ ht => ht

theorem Outcome.Spends.advances (h : o.Spends k s) (ht : o.state? = some t) : s.Advances t := by
  cases o with
  | done place t' =>
    obtain rfl := Option.some.inj ht
    exact Passes.advances h
  | refused err t' =>
    obtain rfl := Option.some.inj ht
    exact Fails.advances h
  | exhausted => cases ht

theorem spends_push (s : Descent) (node : Node Nat) : (s.push node).Spends 0 s := s.passes_add node

theorem passes_operator {op : Operator} (hpeek : s.peek = op.symbol) : s.Passes 1 s.advance := by
  obtain ⟨hadvances, hlength⟩ := advances_of_operator hpeek
  exact .of_advances hadvances rfl (Nat.le_of_eq hlength)

theorem spends_chain {symbols : List Char} {operand : Descent → Outcome}
    {rest : Nat → Descent → Outcome}
    (hsymbols : ∀ c ∈ symbols, (Operator.ofSymbol? c).isSome)
    (hoperand : ∀ t, (operand t).Spends 1 t) (hrest : ∀ place t, (rest place t).Spends 0 t)
    (left : Nat) (s : Descent) : (chain symbols operand rest left s).Spends 0 s := by
  refine Outcome.Spends.of_skipBlanks ?_
  obtain ⟨-, hchain⟩ | ⟨op, hpeek, -, hchain⟩ := chain_cases hsymbols operand rest left s
  · rw [hchain]
    exact passes_refl _
  · rw [hchain]
    refine Outcome.Spends.of_passes (j := 1) ?_ ((passes_operator hpeek).mono (Nat.zero_le 1))
    exact (hoperand _).andThen fun right t => (spends_push t _).andThen hrest

theorem spends_leave (place : Nat) (s : Descent) : (leave place s).Spends 0 s := by
  refine Outcome.Spends.of_skipBlanks ?_
  unfold leave
  split
  · next hpeek =>
    obtain ⟨hadvances, hlength⟩ := advances_of_peek (t := { s.skipBlanks.advance with
      nesting := s.nesting - 1 }) hpeek (by decide) rfl rfl rfl
    exact .of_advances hadvances rfl (Nat.le_of_succ_le (Nat.le_of_eq hlength))
  · exact .behind (passes_refl _)

end Spends

/-- What the calls pass, if they go as deep as they may. -/
structure Consumes (levels : Nat) : Prop where
  expression : ∀ s, (expression levels s).Spends 1 s
  terms : ∀ left s, (terms levels left s).Spends 0 s
  term : ∀ s, (term levels s).Spends 1 s
  factors : ∀ left s, (factors levels left s).Spends 0 s
  factor : ∀ s, (factor levels s).Spends (firstWidth s.skipBlanks.cursor.after) s

section Consumes

variable {levels : Nat}

theorem Consumes.factor_one (h : Consumes levels) (s : Descent) :
    (Descent.factor levels s).Spends 1 s :=
  (h.factor s).mono (firstWidth_pos _)

theorem Consumes.expression_succ (h : Consumes levels) (s : Descent) :
    (Descent.expression (levels + 1) s).Spends 1 s := by
  rw [Descent.expression]
  refine Outcome.Spends.of_skipBlanks ?_
  split_ifs with hpeek
  · have hminus : s.skipBlanks.peek = Operator.sub.symbol := hpeek
    refine Outcome.Spends.of_passes (j := 1) ?_ (passes_operator hminus)
    exact (h.term _).andThen fun first t => (spends_push t _).andThen h.terms
  · exact (h.term _).andThen h.terms

theorem Consumes.term_succ (h : Consumes levels) (s : Descent) :
    (Descent.term (levels + 1) s).Spends 1 s := by
  rw [Descent.term]
  exact Outcome.Spends.of_skipBlanks ((h.factor_one _).andThen h.factors)

theorem spends_number (hd : s.peek.isDigit) :
    s.note.number.Spends (firstWidth s.cursor.after) s := by
  have hafter := s.cursor.after_eq_cons_of_peek rfl fun h => absurd hd (by rw [peek, h]; decide)
  have hwidth : firstWidth s.cursor.after = (Numeral.scan s.cursor.after).1.text.length := by
    rw [hafter]
    exact firstWidth_of_isDigit hd
  have hpasses (c : Cursor) (hc : c = s.cursor.readNumber.2) :
      s.Passes (firstWidth s.cursor.after) { s.note with cursor := c } := by
    refine passes_of_note hafter (.inl hd) (advances_of_number (s := s.note)
      (t := { s.note with cursor := c }) hd hc rfl rfl).1 ?_ rfl
    rw [hwidth]
    exact hc
  unfold number
  split
  · next value c hread =>
    exact (hpasses c (congrArg Prod.snd hread).symm).trans (passes_add _ _)
  · next err c hread => exact .behind (hpasses c (congrArg Prod.snd hread).symm)

/-- A token that is one character is passed, and the counter is put to what that makes of it. -/
theorem passes_of_peek {c : Char} (hpeek : s.peek = c) (hc : c ≠ endOfLine)
    (hd : c.isDigit = false) (hstarts : StartsOperand c) (hcursor : t.cursor = s.cursor.advance)
    (hnesting : t.nesting = countParenthesis s.nesting c) (hcalls : t.calls = s.note.calls) :
    s.Passes (firstWidth s.cursor.after) t := by
  have hafter := s.cursor.after_eq_cons_of_peek hpeek hc
  refine passes_of_note hafter hstarts
    (advances_of_peek (s := s.note) hpeek hc hcursor hnesting hcalls).1 ?_ hcalls
  rw [hafter, firstWidth_of_not_isDigit hd]
  exact hcursor

theorem Consumes.factor_succ (h : Consumes levels) (s : Descent) :
    (Descent.factor (levels + 1) s).Spends (firstWidth s.skipBlanks.cursor.after) s := by
  rw [Descent.factor]
  have hatOnce : s.Fails (firstWidth s.skipBlanks.cursor.after) s.skipBlanks.note := .atOnce
  -- A number, the variable, a group that is one too many, another group, and anything else.
  split_ifs with hd hx hleft hdeep
  · exact (spends_number (s := s.skipBlanks) hd).of_skipBlanks
  · refine Outcome.Spends.of_skipBlanks ?_
    obtain ⟨c, hpeek, hc, hdigit, hstarts, hlevel⟩ : ∃ c, s.skipBlanks.peek = c ∧
        c ≠ endOfLine ∧ c.isDigit = false ∧ StartsOperand c ∧
        countParenthesis s.skipBlanks.nesting c = s.skipBlanks.nesting := by
      rcases hx with hx | hx <;> exact ⟨_, hx, by decide, by decide, by decide, rfl⟩
    exact (passes_of_peek (t := s.skipBlanks.note.advance) hpeek hc hdigit hstarts rfl hlevel.symm
      rfl).trans (passes_add _ _)
  · exact hatOnce
  · refine Outcome.Spends.of_skipBlanks ?_
    have henter := passes_of_peek (s := s.skipBlanks) (t := s.skipBlanks.note.enter) hleft
      (by decide) (by decide) (by decide) rfl rfl rfl
    exact ((h.expression _).andThen spends_leave).of_passes henter
  · exact hatOnce

end Consumes

theorem consumes (levels : Nat) : Consumes levels := by
  induction levels with
  | zero => exact ⟨fun _ => trivial, fun _ _ => trivial, fun _ => trivial, fun _ _ => trivial,
      fun _ => trivial⟩
  | succ levels ih =>
    exact {
      expression := ih.expression_succ
      terms := spends_chain isSome_of_mem_additive ih.term ih.terms
      term := ih.term_succ
      factors := spends_chain isSome_of_mem_multiplicative ih.factor_one ih.factors
      factor := ih.factor_succ }

/-! ## How far a call gets -/

/-- A call gets `k` characters further than the blanks in front, unless the call for a factor
    that it starts with is refused at once. -/
def Outcome.Gains (k : Nat) (s : Descent) (o : Outcome) : Prop :=
  o.Satisfies True (fun _ t => s.skipBlanks.cursor.position + k ≤ t.cursor.position)
    fun _ t => t = s.skipBlanks.note ∨ s.skipBlanks.cursor.position + k ≤ t.cursor.position

theorem Outcome.Gains.mono {o : Outcome} (h : o.Gains k s) (hjk : j ≤ k) : o.Gains j s := by
  have hle {n : Nat} (hn : s.skipBlanks.cursor.position + k ≤ n) :
      s.skipBlanks.cursor.position + j ≤ n := Nat.le_trans (Nat.add_le_add_left hjk _) hn
  exact Satisfies.imp h (fun _ _ ht => hle ht) fun _ _ ht => ht.imp_right hle

theorem Outcome.Spends.gains {o : Outcome} (h : o.Spends k s.skipBlanks) : o.Gains k s := by
  have hle {t : Descent} (ht : s.skipBlanks.Passes k t) :
      s.skipBlanks.cursor.position + k ≤ t.cursor.position :=
    ht.advances.position_add_le ht.length_le
  refine Satisfies.imp h (fun _ _ ht => hle ht) fun _ t ht => ?_
  cases ht with
  | atOnce => exact .inl (by rw [skipBlanks_skipBlanks])
  | @atCall u hu => exact .inr (hle (t := u) hu)
  | behind ht => exact .inr (hle ht)

theorem gains_term (levels : Nat) (s : Descent) : (term levels s).Gains 1 s := by
  have hblanks : term levels s.skipBlanks = term levels s := by
    cases levels with
    | zero => rfl
    | succ levels => rw [term, term, skipBlanks_skipBlanks]
  exact hblanks ▸ ((consumes levels).term s.skipBlanks).gains

theorem gains_factor (levels : Nat) (s : Descent) :
    (factor levels s).Gains (firstWidth s.skipBlanks.cursor.after) s := by
  have hblanks : factor levels s.skipBlanks = factor levels s := by
    cases levels with
    | zero => rfl
    | succ levels => rw [factor, factor, skipBlanks_skipBlanks]
  have hfactor := (consumes levels).factor s.skipBlanks
  rw [hblanks, skipBlanks_skipBlanks] at hfactor
  exact hfactor.gains

theorem spends_line (levels : Nat) (s : Descent) : (line levels s).Spends 1 s := by
  refine ((consumes levels).expression s).andThen fun root t => ?_
  -- At the end of the line, the tree may be too deep; or there is something behind it.
  split_ifs
  · exact .behind t.passes_skipBlanks
  · exact t.passes_skipBlanks
  · exact .behind t.passes_skipBlanks

/-- The calls that can be made in a state, and what they come to. -/
inductive Call (s : Descent) : Outcome → Prop
  | expression (levels : Nat) : Call s (expression levels s)
  | terms (levels left : Nat) : Call s (terms levels left s)
  | term (levels : Nat) : Call s (term levels s)
  | factors (levels left : Nat) : Call s (factors levels left s)
  | factor (levels : Nat) : Call s (factor levels s)
  | line (levels : Nat) : Call s (line levels s)

theorem Call.spends {o : Outcome} (h : Call s o) : o.Spends 0 s := by
  cases h with
  | expression levels => exact ((consumes levels).expression s).mono (Nat.zero_le _)
  | terms levels left => exact (consumes levels).terms left s
  | term levels => exact ((consumes levels).term s).mono (Nat.zero_le _)
  | factors levels left => exact (consumes levels).factors left s
  | factor levels => exact ((consumes levels).factor s).mono (Nat.zero_le _)
  | line levels => exact (spends_line levels s).mono (Nat.zero_le _)

/-- No call moves back. -/
theorem Call.characters_position {o : Outcome} (h : Call s o) (ht : o.state? = some t) :
    t.cursor.characters = s.cursor.characters ∧ s.cursor.position ≤ t.cursor.position :=
  have hadvances := h.spends.advances ht
  ⟨hadvances.characters_eq, hadvances.position_le⟩

/-! ## Rounds of a chain -/

section Rounds

variable {op : Operator} (levels left : Nat)

/-- A round passes its operator. -/
theorem position_advance_of_operator (hpeek : s.skipBlanks.peek = op.symbol) :
    s.skipBlanks.advance.cursor.position = s.skipBlanks.cursor.position + 1 := by
  have hne : op.symbol ≠ endOfLine := by cases op <;> decide
  exact Cursor.position_advance (s.skipBlanks.cursor.after_eq_cons_of_peek hpeek hne)

theorem terms_of_operator (hpeek : s.skipBlanks.peek = op.symbol) (hop : op.isAdditive = true) :
    terms (levels + 1) left s = (term levels s.skipBlanks.advance).andThen fun right t =>
      (t.push (.binary op left right)).andThen (terms levels) := by
  have hmem : op.symbol ∈ ['+', '-'] := by cases op <;> first | decide | cases hop
  rw [terms, chain_of_peek hpeek hmem]

theorem factors_of_operator (hpeek : s.skipBlanks.peek = op.symbol)
    (hop : op.isAdditive = false) :
    factors (levels + 1) left s = (factor levels s.skipBlanks.advance).andThen fun right t =>
      (t.push (.binary op left right)).andThen (factors levels) := by
  have hmem : op.symbol ∈ ['*', '/'] := by cases op <;> first | decide | cases hop
  rw [factors, chain_of_peek hpeek hmem]

end Rounds

/-! ## Lines -/

theorem Apart.length_calls_le (h : s.Apart) : s.calls.length ≤ s.cursor.position :=
  length_le_of_pairwise h.passed h.pairwise

/-- All calls for a factor have passed the tokens they met, one behind the other, but for the
    last one, which may have been refused at once. -/
structure Accounted (o : Outcome) (s : Descent) : Prop where
  length_le : s.calls.length ≤ s.cursor.characters.length + 1
  pairwise : s.calls.Pairwise fun later call => call.stop s.cursor.characters ≤ later.position
  passed : ∀ call ∈ s.calls, call.Passed s.cursor.characters s.cursor.position ∨
    s.calls.head? = some call ∧ call.position = s.cursor.position ∧ ∃ err, o = .refused err s

theorem Apart.accounted (h : s.Apart) (o : Outcome) : Accounted o s where
  length_le := by
    have hle := h.length_calls_le
    have hlength := s.cursor.length_characters
    omega
  pairwise := h.pairwise
  passed call hcall := .inl (h.passed call hcall)

theorem Apart.accounted_note (h : s.Apart) (err : Error) :
    Accounted (.refused err s.note) s.note where
  length_le := by
    have hle := h.length_calls_le
    have hlength := s.cursor.length_characters
    change s.calls.length + 1 ≤ s.cursor.characters.length + 1
    omega
  pairwise := List.pairwise_cons.2 ⟨fun call hcall => (h.passed call hcall).stop_le, h.pairwise⟩
  passed := List.forall_mem_cons.2
    ⟨.inr ⟨rfl, rfl, err, rfl⟩, fun call hcall => .inl (h.passed call hcall)⟩

theorem Outcome.Spends.accounted {o : Outcome} (h : o.Spends k s) (hs : s.Apart)
    (ht : o.state? = some t) : Accounted o t := by
  cases o with
  | done place t' =>
    obtain rfl := Option.some.inj ht
    exact (Passes.apart h hs).accounted _
  | refused err t' =>
    obtain rfl := Option.some.inj ht
    have hfails : s.Fails k t' := h
    cases hfails with
    | atOnce => exact (s.passes_skipBlanks.apart hs).accounted_note err
    | atCall hpasses => exact (hpasses.apart hs).accounted_note err
    | behind hpasses => exact (hpasses.apart hs).accounted _
  | exhausted => cases ht

/-- Reading a line comes to an end, and its calls are accounted for. -/
theorem accounted_line (line : String) {levels : Nat}
    (hlevels : 3 * (lineCharacters line).length + 3 ≤ levels) :
    ∃ t, (Descent.line levels { cursor := .ofLine line }).state? = some t ∧
      t.cursor.characters = lineCharacters line ∧
      Accounted (Descent.line levels { cursor := .ofLine line }) t := by
  obtain ⟨t, ht, -, hcharacters⟩ := exists_counts_line line hlevels
  have hstart : Apart { cursor := .ofLine line } := ⟨nofun, .nil⟩
  exact ⟨t, ht, hcharacters, (spends_line levels _).accounted hstart ht⟩

/-- The nodes of a formula on a line, and two for each group, are as many as the characters
    other than blanks, unless a number has more than one of these. -/
theorem size_of_parse {line : String} {f : Formula} (h : Formula.parse line = .ok f) :
    (lineCharacters line).count ')' = (lineCharacters line).count '(' ∧
    f.graph.size + 2 * (lineCharacters line).count '(' ≤
      (lineCharacters line).countP (fun c => !isBlank c) ∧
    (f.graph.size + 2 * (lineCharacters line).count '(' =
        (lineCharacters line).countP (fun c => !isBlank c) ↔
      ∀ n, .numeral n ∈ tokens (lineCharacters line) → n.text.length = 1) := by
  obtain ⟨e, he, rfl⟩ := Formula.exists_of_parse h
  obtain ⟨hpairs, hsize⟩ := Expr.size_of_parse he
  rw [Formula.size_ofExpr, ← sum_width_eq_zero_iff]
  exact ⟨hpairs, by omega, by omega⟩

/-- Reading a line comes to an end, with no more than one call for a factor for each of its
    characters and one more: each call passes a token of its own, or it is refused at once, and
    then it is the last one. No call moves back, and each round of a chain passes an operator
    and at least one character of its operand, unless that is refused at once. If there is an
    expression on the line, its nodes, and two for each group, are as many as the characters
    other than blanks, unless a number has more than one of these. -/
theorem line_linear (line : String) :
    (∀ levels, 3 * (lineCharacters line).length + 3 ≤ levels →
      (Descent.line levels { cursor := .ofLine line }).result =
        some ((Cursor.ofLine line).readExpr.1.map Formula.ofExpr,
          (Cursor.ofLine line).readExpr.2) ∧
      ∃ t, (Descent.line levels { cursor := .ofLine line }).state? = some t ∧
        t.calls.length ≤ (lineCharacters line).length + 1 ∧
        t.calls.Pairwise (fun later call => call.stop (lineCharacters line) ≤ later.position) ∧
        ∀ call ∈ t.calls, call.Passed (lineCharacters line) t.cursor.position ∨
          t.calls.head? = some call ∧ call.position = t.cursor.position ∧
            ∃ err, Descent.line levels { cursor := .ofLine line } = .refused err t) ∧
    (∀ s o, Call s o → ∀ t, o.state? = some t →
      t.cursor.characters = s.cursor.characters ∧ s.cursor.position ≤ t.cursor.position) ∧
    (∀ levels s, (factor levels s).Gains (firstWidth s.skipBlanks.cursor.after) s) ∧
    (∀ levels left s op, s.skipBlanks.peek = op.symbol →
      s.skipBlanks.advance.cursor.position = s.skipBlanks.cursor.position + 1 ∧
      (op.isAdditive = true →
        terms (levels + 1) left s = (term levels s.skipBlanks.advance).andThen (fun right t =>
          (t.push (.binary op left right)).andThen (terms levels)) ∧
        (term levels s.skipBlanks.advance).Gains 1 s.skipBlanks.advance) ∧
      (op.isAdditive = false →
        factors (levels + 1) left s = (factor levels s.skipBlanks.advance).andThen (fun right t =>
          (t.push (.binary op left right)).andThen (factors levels)) ∧
        (factor levels s.skipBlanks.advance).Gains 1 s.skipBlanks.advance)) ∧
    ∀ f, Formula.parse line = .ok f →
      (lineCharacters line).count ')' = (lineCharacters line).count '(' ∧
      f.graph.size + 2 * (lineCharacters line).count '(' ≤
        (lineCharacters line).countP (fun c => !isBlank c) ∧
      (f.graph.size + 2 * (lineCharacters line).count '(' =
          (lineCharacters line).countP (fun c => !isBlank c) ↔
        ∀ n, .numeral n ∈ tokens (lineCharacters line) → n.text.length = 1) := by
  refine ⟨fun levels hlevels => ⟨result_line (.ofLine line) hlevels, ?_⟩,
    fun s o hcall t ht => hcall.characters_position ht, gains_factor,
    fun levels left s op hpeek => ⟨position_advance_of_operator hpeek,
      fun hop => ⟨terms_of_operator levels left hpeek hop, gains_term _ _⟩,
      fun hop => ⟨factors_of_operator levels left hpeek hop,
        (gains_factor _ _).mono (firstWidth_pos _)⟩⟩,
    fun f hf => size_of_parse hf⟩
  obtain ⟨t, ht, hcharacters, hlength, hpairwise, hpassed⟩ := accounted_line line hlevels
  rw [hcharacters] at hlength hpairwise hpassed
  exact ⟨t, ht, hlength, hpairwise, hpassed⟩

/-- In `(x+`, the call behind the operator is refused at once; in `12*(x-3)`, the number has one
    character more than it has nodes. -/
theorem line_linear_groups :
    (∃ t, (Descent.line 15 { cursor := .ofLine "(x+\n" }).state? = some t ∧
      t.calls.length ≤ 4 ∧ ∀ call ∈ t.calls, call.Passed ['(', 'x', '+'] t.cursor.position ∨
        t.calls.head? = some call ∧ call.position = t.cursor.position ∧
          ∃ err, Descent.line 15 { cursor := .ofLine "(x+\n" } = .refused err t) ∧
    (∃ t, (factor 1 { cursor := (Cursor.ofLine "(x+\n").advance }).state? = some t ∧
      1 ≤ t.cursor.position) ∧
    (term 2 { cursor := (Cursor.ofLine "(x+\n").advanceBy 3 }).Gains 1
      { cursor := (Cursor.ofLine "(x+\n").advanceBy 3 } ∧
    ∃ f, Formula.parse "12*(x-3)\n" = .ok f ∧ f.graph.size + 2 ≤ 8 ∧ f.graph.size + 2 ≠ 8 := by
  have hparse : Expr.parse "12*(x-3)\n" =
      .ok (.binary .mul (.constant 12.0) (.binary .sub .var (.constant 3.0))) := by
    decide +kernel
  have htokens : Token.numeral ⟨['1', '2'], none, none⟩ ∈ tokens (lineCharacters "12*(x-3)\n") := by
    decide +kernel
  obtain ⟨hrun, hback, -, hround, -⟩ := line_linear "(x+\n"
  obtain ⟨-, t, ht, hlength, -, hpassed⟩ := hrun 15 (by decide)
  obtain ⟨-, -, -, -, hread⟩ := line_linear "12*(x-3)\n"
  obtain ⟨-, hle, hiff⟩ := hread _ (Formula.parse_of_parse hparse)
  obtain ⟨u, hu⟩ : ∃ u, (factor 1 { cursor := (Cursor.ofLine "(x+\n").advance }).state? = some u :=
    ⟨_, rfl⟩
  refine ⟨⟨t, ht, hlength, hpassed⟩, ⟨u, hu, (hback _ _ (.factor 1) u hu).2⟩, ?_,
    _, Formula.parse_of_parse hparse, hle, fun heq => ?_⟩
  · exact ((hround 2 0 { cursor := (Cursor.ofLine "(x+\n").advanceBy 2 } .add rfl).2.1 rfl).2
  · cases hiff.1 heq _ htokens

/-- The last one of the calls may make one more than there are characters. -/
example :
    ((line 12 { cursor := .ofLine "(((\n" }).state?.map fun t => t.calls.length) = some 4 := by
  decide

end Descent

end Derivatives
