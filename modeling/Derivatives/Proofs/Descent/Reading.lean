import Derivatives.Proofs.Descent.Counter
import Derivatives.Proofs.Graph

/-!
# Recursive descent reads token by token

What the descent reads, and where it refuses a line, is what the reading does that goes
token by token (`Descent.result_line`). In between, a call follows the reading
(`Outcome.Tracks`): whenever it comes back, what is still to be read is read on in some
state from where the cursor is (`Reading.readOn`). That state is known from what has been
called for (`ReadsFactor`, `ReadsTerm`, `ReadsExpression`): the expression taken in by the
reading has been added to the graph, and as many groups are around as the counter says.
-/

namespace Derivatives

open Number

/-! ## Reading on from a cursor -/

namespace Reading

variable {state next : Reading} {c : Cursor} {d : Char} {cs : List Char} {err : Error}
  {outer : List Pending} {pending : Pending} {lead : Lead} {term : Expr}

/-- What is read on from a cursor. -/
def readOn (state : Reading) (c : Cursor) : Except Refusal Expr :=
  state.run c.characters.length (lexemes c.position c.after)

/-- Reading on does not depend on what has been passed, but for the place of a refusal. -/
theorem readOn_eq (state : Reading) (c : Cursor) : state.readOn c =
    (state.run c.after.length (lexemes 0 c.after)).mapError (Refusal.shift c.position) := by
  rw [readOn, c.length_characters, Nat.add_comm, ← run_shift, ← lexemes_add, Nat.zero_add]

/-- Blanks can be passed before reading on. -/
theorem readOn_advanceBy_blanks {bs : List Char} (h : c.after = bs ++ cs)
    (hbs : ∀ d ∈ bs, isBlank d) : state.readOn (c.advanceBy bs.length) = state.readOn c := by
  have hle : bs.length ≤ c.after.length := by
    rw [h, List.length_append]
    exact Nat.le_add_right _ _
  rw [readOn, readOn, Cursor.characters_advanceBy, Cursor.position_advanceBy, Nat.min_eq_left hle,
    Cursor.after_advanceBy h, h, lexemes_blanks_append _ hbs]

theorem readOn_skipBlanks (state : Reading) (c : Cursor) :
    state.readOn c.skipBlanks = state.readOn c :=
  readOn_advanceBy_blanks List.takeWhile_append_dropWhile.symm fun _ hd => List.mem_takeWhile_imp hd

/-- At the end of the line. -/
theorem readOn_of_after_eq_nil (h : c.after = []) :
    state.readOn c = state.finish.mapError (⟨·, c.position⟩) := by
  rw [readOn, h, lexemes_nil, run, Cursor.characters, h, List.append_nil, List.length_reverse]
  rfl

/-- A token that is one character can come next. -/
theorem readOn_of_step (h : c.after = d :: cs) (hblank : isBlank d = false)
    (hd : d.isDigit = false) (hs : state.step (.ofChar d) = .ok next) :
    state.readOn c = next.readOn c.advance := by
  rw [readOn, h, lexemes_cons _ hblank hd, run, hs, readOn, Cursor.position_advance h,
    Cursor.after_advance h, Cursor.advance, Cursor.characters_advanceBy]

/-- A token that is one character is refused. -/
theorem readOn_of_error (h : c.after = d :: cs) (hblank : isBlank d = false)
    (hd : d.isDigit = false) (hs : state.step (.ofChar d) = .error err) :
    state.readOn c = .error ⟨err, c.position⟩ := by
  have hposition : state.refusalPosition ⟨.ofChar d, c.position, c.position + 1⟩ = c.position :=
    refusalPosition_of_ne_numeral fun n => Token.ofChar_ne_numeral d n
  rw [readOn, h, lexemes_cons _ hblank hd, run, hs, hposition]

/-- Where an operand has to come, a number is read. -/
theorem readOn_of_isDigit (h : c.after = d :: cs) (hd : d.isDigit) :
    (awaiting outer pending).readOn c =
      match c.readNumber with
      | (.ok value, c') => (afterOperand outer pending (.constant value)).readOn c'
      | (.error err, c') => .error ⟨err, c'.position⟩ := by
  rw [readOn, Cursor.lexemes_readNumber h hd, run, step, Cursor.readNumber]
  cases (Numeral.scan c.after).1.value with
  | error err => rfl
  | ok value =>
    change run _ _ _ = readOn _ _
    rw [readOn, Cursor.characters_advanceBy]

/-- Where an operand has come, nothing but an operator and a closing parenthesis of one that
    is open can come next, and the end of the line if none is. -/
theorem readOn_complete (hblank : ∀ d ∈ c.after.head?, isBlank d = false)
    (hop : Operator.ofSymbol? c.peek = none) (hright : 0 < outer.length → c.peek ≠ ')')
    (hend : outer.length = 0 → c.after ≠ []) :
    (complete outer lead term).readOn c = .error ⟨.atOperator outer.length, c.position⟩ := by
  cases hafter : c.after with
  | nil =>
    rw [readOn_of_after_eq_nil hafter]
    cases outer with
    | nil => exact absurd hafter (hend rfl)
    | cons pending outer => rfl
  | cons d cs =>
    have hpeek : c.peek = d := by rw [Cursor.peek, hafter]; rfl
    rw [hpeek] at hop hright
    obtain ⟨w, rest, htext, hspelling, -, hlexemes⟩ :=
      exists_lexemes_cons cs (hblank d (by rw [hafter]; rfl))
    rw [readOn, hafter, hlexemes, run]
    cases hstep : (complete outer lead term).step (.first d cs) with
    | error err =>
      obtain ⟨rfl, -⟩ := error_of_step_complete hstep
      rfl
    | ok next =>
      -- Every token that is accepted here is one of the characters ruled out.
      generalize Token.first d cs = t at hspelling hstep
      cases Steps.of_step hstep with
      | @additive _ _ _ op | @multiplicative _ _ _ op =>
        cases hspelling
        obtain ⟨rfl, -⟩ := List.cons.inj htext
        rw [Operator.ofSymbol?_symbol] at hop
        cases hop
      | rightParenthesis =>
        cases hspelling
        obtain ⟨rfl, -⟩ := List.cons.inj htext
        exact absurd rfl (hright (Nat.succ_pos _))

/-- Where an operand has come, a digit is refused, whatever numeral it starts. -/
theorem readOn_complete_of_isDigit (h : c.after = d :: cs) (hd : d.isDigit) :
    (complete outer lead term).readOn c = .error ⟨.atOperator outer.length, c.position⟩ := by
  have hpeek : c.peek = d := by rw [Cursor.peek, h]; rfl
  refine readOn_complete ?_ ?_ (fun _ => ?_) fun _ => ?_
  · rw [h]
    rintro d' ⟨⟩
    exact isBlank_of_isDigit hd
  · rw [hpeek, Operator.ofSymbol?_of_isDigit hd]
  · rw [hpeek]
    rintro rfl
    cases hd
  · rw [h]
    exact List.cons_ne_nil _ _

/-- A character that starts no operand is refused where one has to come, unless it is the
    minus sign of a group. -/
theorem step_ofChar_of_not_startsOperand (hd : ¬ StartsOperand d)
    (hminus : pending = {} → d ≠ '-') :
    (awaiting outer pending).step (.ofChar d) = .error (.atOperand (some d)) := by
  rw [StartsOperand, not_or, not_or, not_or] at hd
  obtain ⟨-, hx, hX, hleft⟩ := hd
  by_cases hright : d = ')'
  · subst hright
    rfl
  have htoken : Token.ofChar d = (Operator.ofSymbol? d).elim (.other d) .operator := by
    unfold Token.ofChar
    split <;> first | contradiction | rfl
  rw [htoken]
  cases hop : Operator.ofSymbol? d with
  | none =>
    rw [Error.atOperand, if_neg hright, hop]
    rfl
  | some op =>
    obtain rfl := Operator.eq_symbol_of_ofSymbol? hop
    rw [atOperand_symbol]
    refine if_neg ?_
    rintro ⟨rfl, hpending⟩
    exact hminus hpending rfl

theorem readOn_of_operator {op : Operator} (hpeek : c.peek = op.symbol)
    (hs : state.step (.operator op) = .ok next) : state.readOn c = next.readOn c.advance := by
  have hafter := c.after_eq_cons_of_peek hpeek (by cases op <;> decide)
  cases op <;> exact readOn_of_step hafter rfl (by decide) hs

end Reading

/-! ## Calls follow the reading -/

namespace Descent

open Reading

variable {s t : Descent} {o : Outcome} {next : Nat → Descent → Outcome}
  {r : Except Refusal Expr} {P Q : Nat → Descent → Reading → Prop} {state : Reading}

/-- The outcome of a call that follows a reading with a given result: it reads on in some
    state where the call is done, and it is refused as the call is. -/
def Outcome.Tracks (r : Except Refusal Expr) (Q : Nat → Descent → Reading → Prop)
    (o : Outcome) : Prop :=
  o.Satisfies True
    (fun place t => ∃ state, r = Reading.readOn state t.cursor ∧ Q place t state)
    (fun err t => r = .error ⟨err, t.cursor.position⟩)

theorem Outcome.Tracks.andThen (h : o.Tracks r P)
    (hnext : ∀ place t state, P place t state →
      (next place t).Tracks (Reading.readOn state t.cursor) Q) : (o.andThen next).Tracks r Q := by
  refine Satisfies.andThen h ?_ fun err t h => h
  rintro place t ⟨state, rfl, hp⟩
  exact hnext place t state hp

/-- The node of an expression has been added to a graph, inside of a number of groups. -/
structure Adds (g : Graph) (nesting : Nat) (e : Expr) (place : Nat) (t : Descent) : Prop where
  addExpr_eq : g.addExpr e = (t.graph, place)
  nesting_eq : t.nesting = nesting

variable {g : Graph} {nesting : Nat} {e e' : Expr} {op : Operator} {place left right : Nat}

theorem Adds.binary (hleft : Adds g nesting e left s) (hright : Adds s.graph nesting e' right t)
    (op : Operator) :
    Adds g nesting (.binary op e e') t.graph.size
      { t with graph := (t.graph.add (.binary op left right)).1 } := by
  refine ⟨?_, hright.nesting_eq⟩
  rw [Graph.addExpr, hleft.addExpr_eq]
  dsimp only
  rw [hright.addExpr_eq]
  rfl

theorem Adds.negate (h : Adds g nesting e place s) :
    Adds g nesting (.negate e) s.graph.size
      { s with graph := (s.graph.add (.negate place)).1 } := by
  refine ⟨?_, h.nesting_eq⟩
  rw [Graph.addExpr, h.addExpr_eq]
  rfl

theorem tracks_chain {symbols : List Char} {operand : Descent → Outcome}
    {rest : Nat → Descent → Outcome}
    (hstep : ∀ op, op.symbol ∈ symbols → ∃ next P, state.step (.operator op) = .ok next ∧
      (operand s.skipBlanks.advance).Tracks (next.readOn s.skipBlanks.advance.cursor) P ∧
      ∀ right t state, P right t state →
        (rest t.graph.size { t with graph := (t.graph.add (.binary op left right)).1 }).Tracks
          (state.readOn t.cursor) Q)
    (hsymbols : ∀ c ∈ symbols, (Operator.ofSymbol? c).isSome)
    (hdone : s.skipBlanks.peek ∉ symbols → Q left s.skipBlanks state) :
    (chain symbols operand rest left s).Tracks (state.readOn s.cursor) Q := by
  rw [← readOn_skipBlanks]
  obtain ⟨hpeek, hchain⟩ | ⟨op, hsymbol, hmem, hchain⟩ := chain_cases hsymbols operand rest left s
  · rw [hchain]
    exact ⟨state, rfl, hdone hpeek⟩
  · obtain ⟨next, P, hnext, hoperand, hrest⟩ := hstep op hmem
    have hread : state.readOn s.cursor.skipBlanks = next.readOn s.skipBlanks.advance.cursor :=
      readOn_of_operator hsymbol hnext
    rw [hchain, hread]
    exact hoperand.andThen hrest

theorem Adds.skipBlanks (h : Adds g nesting e place s) : Adds g nesting e place s.skipBlanks :=
  ⟨h.addExpr_eq, h.nesting_eq⟩

section Reads

variable (g : Graph) (outer : List Pending)

/-- A factor has been read, and has come as the operand that was pending. -/
def ReadsFactor (pending : Pending) (place : Nat) (t : Descent) (state : Reading) : Prop :=
  ∃ factor, Adds g outer.length factor place t ∧ state = afterOperand outer pending factor

/-- A term has been read, and it does not go on. -/
def ReadsTerm (lead : Lead) (place : Nat) (t : Descent) (state : Reading) : Prop :=
  ∃ term, Adds g outer.length term place t ∧ state = complete outer lead term ∧
    t.skipBlanks.peek ∉ ['*', '/']

/-- An expression has been read, and it does not go on. -/
def ReadsExpression (place : Nat) (t : Descent) (state : Reading) : Prop :=
  ∃ lead term, Adds g outer.length (lead.append term) place t ∧
    state = complete outer lead term ∧ Operator.ofSymbol? t.skipBlanks.peek = none

end Reads

/-- Inside of the groups `outer`, the calls follow the reading: what it takes in is added to
    the graph. -/
structure Follows (levels : Nat) : Prop where
  expression : ∀ (s : Descent) (outer : List Pending), s.nesting = outer.length →
    (expression levels s).Tracks ((awaiting outer {}).readOn s.cursor)
      (ReadsExpression s.graph outer)
  terms : ∀ (left : Nat) (s : Descent) (outer : List Pending) (lead : Lead) (term : Expr)
    (g : Graph), Adds g outer.length (lead.append term) left s →
    s.skipBlanks.peek ∉ ['*', '/'] →
    (terms levels left s).Tracks ((complete outer lead term).readOn s.cursor)
      (ReadsExpression g outer)
  term : ∀ (s : Descent) (outer : List Pending) (lead : Lead), s.nesting = outer.length →
    (lead = .start → s.skipBlanks.peek ≠ '-') →
    (term levels s).Tracks ((awaiting outer { lead }).readOn s.cursor)
      (ReadsTerm s.graph outer lead)
  factors : ∀ (left : Nat) (s : Descent) (outer : List Pending) (lead : Lead) (term : Expr)
    (g : Graph), Adds g outer.length term left s →
    (factors levels left s).Tracks ((complete outer lead term).readOn s.cursor)
      (ReadsTerm g outer lead)
  factor : ∀ (s : Descent) (outer : List Pending) (pending : Pending),
    s.nesting = outer.length → (pending = {} → s.skipBlanks.peek ≠ '-') →
    (factor levels s).Tracks ((awaiting outer pending).readOn s.cursor)
      (ReadsFactor s.graph outer pending)

section Follows

variable {levels : Nat} {outer : List Pending} {pending : Pending} {lead : Lead} {term : Expr}

theorem skipBlanks_skipBlanks (s : Descent) : s.skipBlanks.skipBlanks = s.skipBlanks :=
  congrArg (fun c => { s with cursor := c }) s.cursor.skipBlanks_skipBlanks

theorem Follows.terms_succ (h : Follows levels)
    (hleft : Adds g outer.length (lead.append term) left s)
    (hpeek : s.skipBlanks.peek ∉ ['*', '/']) :
    (Descent.terms (levels + 1) left s).Tracks ((complete outer lead term).readOn s.cursor)
      (ReadsExpression g outer) := by
  refine tracks_chain (fun op hop => ?_) isSome_of_mem_additive fun hdone => ?_
  · have hadditive : op.isAdditive = true := by
      cases op <;> first | rfl | exact absurd hop (by decide)
    refine ⟨_, _, step_of_isAdditive hadditive, h.term _ outer _ hleft.nesting_eq nofun, ?_⟩
    rintro right t state ⟨term', hright, rfl, hpeek'⟩
    exact h.terms _ _ outer _ term' g (hleft.binary hright op) hpeek'
  · refine ⟨lead, term, hleft.skipBlanks, rfl, ?_⟩
    rw [skipBlanks_skipBlanks]
    cases hop : Operator.ofSymbol? s.skipBlanks.peek with
    | none => rfl
    | some op =>
      rw [Operator.eq_symbol_of_ofSymbol? hop] at hpeek hdone
      cases op <;> first | exact absurd (by decide) hpeek | exact absurd (by decide) hdone

theorem Follows.factors_succ (h : Follows levels) (hleft : Adds g outer.length term left s) :
    (Descent.factors (levels + 1) left s).Tracks ((complete outer lead term).readOn s.cursor)
      (ReadsTerm g outer lead) := by
  refine tracks_chain (fun op hop => ?_) isSome_of_mem_multiplicative fun hdone => ?_
  · have hadditive : op.isAdditive = false := by
      cases op <;> first | rfl | exact absurd hop (by decide)
    refine ⟨_, _, step_of_not_isAdditive hadditive, h.factor _ outer _ hleft.nesting_eq nofun, ?_⟩
    rintro right t state ⟨factor, hright, rfl⟩
    exact h.factors _ _ outer lead _ g (hleft.binary hright op)
  · refine ⟨term, hleft.skipBlanks, rfl, ?_⟩
    rwa [skipBlanks_skipBlanks]

theorem Follows.term_succ (h : Follows levels) (hs : s.nesting = outer.length)
    (hpeek : lead = .start → s.skipBlanks.peek ≠ '-') :
    (Descent.term (levels + 1) s).Tracks ((awaiting outer { lead }).readOn s.cursor)
      (ReadsTerm s.graph outer lead) := by
  rw [Descent.term, ← readOn_skipBlanks]
  refine (h.factor s.skipBlanks outer { lead } hs fun hpending => ?_).andThen ?_
  · rw [skipBlanks_skipBlanks]
    exact hpeek (congrArg Pending.lead hpending)
  · rintro first t state ⟨factor, hfirst, rfl⟩
    exact h.factors first t outer lead factor s.graph hfirst

theorem Follows.expression_succ (h : Follows levels) (hs : s.nesting = outer.length) :
    (Descent.expression (levels + 1) s).Tracks ((awaiting outer {}).readOn s.cursor)
      (ReadsExpression s.graph outer) := by
  rw [Descent.expression, ← readOn_skipBlanks]
  split_ifs with hpeek
  · have hsymbol : s.cursor.skipBlanks.peek = Operator.sub.symbol := hpeek
    have hread : (awaiting outer {}).readOn s.cursor.skipBlanks =
        (awaiting outer { lead := .minus }).readOn s.skipBlanks.advance.cursor :=
      readOn_of_operator hsymbol step_minus
    rw [hread]
    refine (h.term s.skipBlanks.advance outer .minus hs fun h => by cases h).andThen ?_
    rintro first t state ⟨term, hfirst, rfl, hpeek⟩
    exact h.terms _ _ outer .minus term s.graph hfirst.negate hpeek
  · refine (h.term s.skipBlanks outer .start hs fun _ => ?_).andThen ?_
    · rwa [skipBlanks_skipBlanks]
    · rintro first t state ⟨term, hfirst, rfl, hpeek⟩
      exact h.terms first t outer .start term s.graph hfirst hpeek

theorem tracks_number (hd : s.peek.isDigit) (hs : s.nesting = outer.length) :
    s.number.Tracks ((awaiting outer pending).readOn s.cursor)
      (ReadsFactor s.graph outer pending) := by
  have hafter := s.cursor.after_eq_cons_of_peek rfl fun h => absurd hd (by rw [peek, h]; decide)
  rw [readOn_of_isDigit hafter hd, number]
  obtain ⟨err | value, c⟩ := s.cursor.readNumber
  · rfl
  · exact ⟨_, rfl, .constant value, ⟨rfl, hs⟩, rfl⟩

/-- A group is the operand that was pending when it was opened. -/
theorem tracks_leave (h : ReadsExpression g (pending :: outer) place s state) :
    (leave place s).Tracks (state.readOn s.cursor) (ReadsFactor g outer pending) := by
  obtain ⟨lead, term, hadds, rfl, hpeek⟩ := h
  rw [← readOn_skipBlanks]
  unfold leave
  split_ifs with hright
  · have hafter := s.cursor.skipBlanks.after_eq_cons_of_peek hright (by decide)
    rw [readOn_of_step hafter rfl (by decide) rfl]
    refine ⟨_, rfl, lead.append term, ⟨hadds.addExpr_eq, ?_⟩, rfl⟩
    change s.nesting - 1 = _
    rw [hadds.nesting_eq]
    rfl
  · exact readOn_complete s.cursor.isBlank_head_skipBlanks hpeek (fun _ => hright) nofun

/-- What is neither a number, nor the variable, nor a group is refused. -/
theorem readOn_of_not_startsOperand (hblank : ∀ d ∈ s.cursor.after.head?, isBlank d = false)
    (hstarts : ¬ StartsOperand s.peek) (hminus : pending = {} → s.peek ≠ '-') :
    (awaiting outer pending).readOn s.cursor =
      .error ⟨.atOperand (some s.peek), s.cursor.position⟩ := by
  cases hafter : s.cursor.after with
  | nil =>
    have hpeek : s.peek = endOfLine := by rw [peek, Cursor.peek, hafter]; rfl
    rw [readOn_of_after_eq_nil hafter, hpeek]
    rfl
  | cons d cs =>
    have hpeek : s.peek = d := by rw [peek, Cursor.peek, hafter]; rfl
    rw [hpeek] at hstarts hminus ⊢
    have hd : d.isDigit = false := Bool.eq_false_iff.2 fun hd => hstarts (.inl hd)
    exact readOn_of_error hafter (hblank d (by rw [hafter]; rfl)) hd
      (step_ofChar_of_not_startsOperand hstarts hminus)

theorem Follows.factor_succ (h : Follows levels) (hs : s.nesting = outer.length)
    (hpeek : pending = {} → s.skipBlanks.peek ≠ '-') :
    (Descent.factor (levels + 1) s).Tracks ((awaiting outer pending).readOn s.cursor)
      (ReadsFactor s.graph outer pending) := by
  have hblank := s.cursor.isBlank_head_skipBlanks
  rw [Descent.factor, ← readOn_skipBlanks]
  obtain ⟨t, ht⟩ : ∃ t, t = s.skipBlanks.note := ⟨_, rfl⟩
  have hgraph : s.graph = t.graph := by rw [ht]; rfl
  have hcursor : s.cursor.skipBlanks = t.cursor := by rw [ht]; rfl
  have hnesting : t.nesting = outer.length := by rw [ht]; exact hs
  have hminus : pending = {} → t.peek ≠ '-' := by rw [ht]; exact hpeek
  rw [hgraph, hcursor, ← ht]
  rw [hcursor] at hblank
  -- A digit, a letter, a parenthesis too many, one that opens a group, and all else.
  split_ifs with hd hx hleft hdeep
  · exact tracks_number hd hnesting
  · have hread : (awaiting outer pending).readOn t.cursor =
        (afterOperand outer pending .var).readOn t.cursor.advance := by
      rcases hx with hx | hx <;>
        exact readOn_of_step (t.cursor.after_eq_cons_of_peek hx (by decide)) rfl (by decide) rfl
    exact ⟨_, hread, .var, ⟨rfl, hnesting⟩, rfl⟩
  · exact readOn_of_error (t.cursor.after_eq_cons_of_peek hleft (by decide)) rfl (by decide)
      (if_pos (hnesting.symm.trans hdeep))
  · have hread : (awaiting outer pending).readOn t.cursor =
        (awaiting (pending :: outer) {}).readOn t.enter.cursor :=
      readOn_of_step (t.cursor.after_eq_cons_of_peek hleft (by decide)) rfl (by decide)
        (if_neg fun hlength => hdeep (hnesting.trans hlength))
    rw [hread]
    exact (h.expression t.enter (pending :: outer) (congrArg Nat.succ hnesting)).andThen
      fun place u state hreads => tracks_leave hreads
  · refine readOn_of_not_startsOperand hblank ?_ hminus
    rintro (hd' | hx' | hX' | hleft')
    · exact hd hd'
    · exact hx (.inl hx')
    · exact hx (.inr hX')
    · exact hleft hleft'

end Follows

theorem follows (levels : Nat) : Follows levels := by
  induction levels with
  | zero => exact ⟨fun _ _ _ => trivial, fun _ _ _ _ _ _ _ _ => trivial, fun _ _ _ _ _ => trivial,
      fun _ _ _ _ _ _ _ => trivial, fun _ _ _ _ _ => trivial⟩
  | succ levels ih =>
    exact {
      expression := fun s outer hs => ih.expression_succ hs
      terms := fun left s outer lead term g hleft hpeek => ih.terms_succ hleft hpeek
      term := fun s outer lead hs hpeek => ih.term_succ hs hpeek
      factors := fun left s outer lead term g hleft => ih.factors_succ hleft
      factor := fun s outer pending hs hpeek => ih.factor_succ hs hpeek }

/-! ## Lines -/

theorem Adds.depth_eq (h : Adds {} nesting e place t) : t.graph.depth place = e.depth := by
  have hgrown := Graph.addExpr_grown Graph.wellFormed_empty e
  have hunfold := Graph.unfold_addExpr Graph.wellFormed_empty e
  rw [h.addExpr_eq] at hgrown hunfold
  rw [Graph.depth_eq hgrown.wellFormed hgrown.lt_size, hunfold]

/-- A call for a line follows the reading of it. -/
theorem tracks_line (levels : Nat) (c : Cursor) :
    (line levels { cursor := c }).Satisfies True
      (fun root t => ∃ e, initial.readOn c = .ok e ∧ Graph.addExpr {} e = (t.graph, root) ∧
        t.cursor.after = [])
      (fun err t => initial.readOn c = .error ⟨err, t.cursor.position⟩) := by
  refine Outcome.Satisfies.andThen ((follows levels).expression { cursor := c } [] rfl) ?_
    fun err t h => h
  rintro root t ⟨state, hread, lead, term, hadds, rfl, hpeek⟩
  have hread : initial.readOn c = (complete [] lead term).readOn t.skipBlanks.cursor :=
    hread.trans (readOn_skipBlanks _ t.cursor).symm
  rw [hread, hadds.depth_eq]
  split_ifs with hend hdeep
  · rw [readOn_of_after_eq_nil (List.isEmpty_iff.1 hend), finish, if_pos hdeep]
    rfl
  · refine ⟨lead.append term, ?_, hadds.addExpr_eq, List.isEmpty_iff.1 hend⟩
    rw [readOn_of_after_eq_nil (List.isEmpty_iff.1 hend), finish, if_neg hdeep]
    rfl
  · exact readOn_complete t.cursor.isBlank_head_skipBlanks hpeek
      (fun hopen => absurd hopen (Nat.not_lt_zero _)) fun _ hnil => hend (List.isEmpty_iff.2 hnil)

/-- What is left of a line is read token by token: a call for it comes to the same formula
    or error, and to the same place. -/
theorem result_line {levels : Nat} (c : Cursor) (h : 3 * c.after.length + 3 ≤ levels) :
    (line levels { cursor := c }).result =
      some (c.readExpr.1.map Formula.ofExpr, c.readExpr.2) := by
  have hmoves := satisfies_line (s := { cursor := c }) h
  have htracks := tracks_line levels c
  have hreadOn : initial.readOn c = (Expr.read c.after).mapError (Refusal.shift c.position) :=
    readOn_eq initial c
  rw [hreadOn] at htracks
  rw [Cursor.readExpr]
  cases hline : line levels { cursor := c } with
  | exhausted =>
    -- Three calls a character, and three at the end, are enough.
    rw [hline] at hmoves
    exact hmoves.elim
  | done root t =>
    rw [hline] at hmoves htracks
    obtain ⟨e, hread, hadds, hafter⟩ := htracks
    -- A cursor is given by its line and by what is left of that.
    have hcursor : t.cursor = c.toEnd := by
      refine Cursor.eq_of_characters_eq ?_ (by rw [hafter, c.toEnd_eq])
      rw [hmoves.characters_eq, Cursor.toEnd, Cursor.characters_advanceBy]
    cases hexpr : Expr.read c.after with
    | error refusal =>
      rw [hexpr] at hread
      cases hread
    | ok e' =>
      rw [hexpr] at hread
      obtain rfl := Except.ok.inj hread
      have hformula : Formula.ofExpr e' = ⟨t.graph, root⟩ := by rw [Formula.ofExpr, hadds]
      rw [Outcome.result, hcursor, ← hformula]
      rfl
  | refused err t =>
    rw [hline] at hmoves htracks
    have hread : (Expr.read c.after).mapError (Refusal.shift c.position) =
        .error ⟨err, t.cursor.position⟩ := htracks
    cases hexpr : Expr.read c.after with
    | ok e =>
      rw [hexpr] at hread
      cases hread
    | error refusal =>
      rw [hexpr] at hread
      obtain ⟨rfl, hposition⟩ := Refusal.mk.inj (Except.error.inj hread)
      have hcursor : t.cursor = c.advanceBy refusal.position := by
        refine Cursor.eq_of_characters_eq ?_ ?_
        · rw [hmoves.characters_eq, Cursor.characters_advanceBy]
        · rw [← t.cursor.drop_position, hmoves.characters_eq, ← hposition, Nat.add_comm,
            ← List.drop_drop, c.drop_position]
          rfl
      rw [Outcome.result, hcursor]
      rfl

/-- A formula on a line is laid out as the nodes of it are added. -/
theorem result_line_of_parse {text : String} {f : Formula} (h : Formula.parse text = .ok f)
    {levels : Nat} (hlevels : 3 * (lineCharacters text).length + 3 ≤ levels) :
    (line levels { cursor := .ofLine text }).result = some (.ok f, (Cursor.ofLine text).toEnd) := by
  rw [result_line (.ofLine text) hlevels, Cursor.readExpr]
  rw [Formula.parse, Expr.parse, Cursor.readExpr] at h
  cases hread : Expr.read (Cursor.ofLine text).after with
  | error refusal =>
    rw [hread] at h
    cases h
  | ok e =>
    rw [hread] at h
    exact congrArg (fun r => some (r, _)) h

end Descent

end Derivatives
