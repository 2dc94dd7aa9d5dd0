import Derivatives.Proofs.Descent.Reading
import Derivatives.Proofs.Grammar.Prefix
import Derivatives.Proofs.Graph.Growth
import Derivatives.Proofs.Token.Separator

/-!
# When nesting is too deep

There are two ways for a line to be refused for nesting too deep. One more parenthesis than
may be open at once is opened where an operand has to come (`OpensTooMany`), or the line is
a sentence that could be read but for the depth of its tree (`IsTooDeep`); and in both cases
nothing else has been wrong up to there (`Expr.read_eq_nestedTooDeeply_iff`).
-/

namespace Derivatives

open Number Grammar

/-! ## Parentheses in sentences -/

/-- Any text that is open `n` times at once, at most, and closed in the end. -/
structure Nests (n : Nat) (w : List Char) : Prop where
  /-- On the way, at most `n` more parentheses are open. -/
  foldl_le : ∀ level u, u <+: w → u.foldl countParenthesis level ≤ level + n
  /-- In the end, all of them have been closed. -/
  foldl_eq : ∀ level, w.foldl countParenthesis level = level

namespace Nests

variable {m n : Nat} {v w : List Char}

theorem of_forall_ne (hw : ∀ c ∈ w, c ≠ '(' ∧ c ≠ ')') : Nests 0 w where
  foldl_le level _ hu :=
    Nat.le_of_eq (Reading.foldl_countParenthesis (fun c hc => hw c (hu.subset hc)) level)
  foldl_eq level := Reading.foldl_countParenthesis hw level

theorem append (hv : Nests m v) (hw : Nests n w) : Nests (max m n) (v ++ w) where
  foldl_le level u hu := by
    rcases List.prefix_or_prefix_of_prefix hu (List.prefix_append v w) with huv | ⟨u, rfl⟩
    · exact Nat.le_trans (hv.foldl_le level u huv) (Nat.add_le_add_left (Nat.le_max_left m n) level)
    · rw [List.foldl_append, hv.foldl_eq]
      have huw : u <+: w := (List.prefix_append_right_inj v).1 hu
      exact Nat.le_trans (hw.foldl_le level u huw)
        (Nat.add_le_add_left (Nat.le_max_right m n) level)
  foldl_eq level := by rw [List.foldl_append, hv.foldl_eq, hw.foldl_eq]

/-- In front of a text, characters that are no parentheses change nothing. -/
theorem append_left (hv : ∀ c ∈ v, c ≠ '(' ∧ c ≠ ')') (hw : Nests n w) : Nests n (v ++ w) := by
  have := (of_forall_ne hv).append hw
  rwa [Nat.zero_max] at this

theorem group (hw : Nests n w) : Nests (n + 1) ('(' :: (w ++ [')'])) where
  foldl_le level u hu := by
    rcases List.prefix_cons_iff.1 hu with rfl | ⟨u, rfl, hinner⟩
    · exact Nat.le_add_right level (n + 1)
    · rw [List.foldl_cons]
      change u.foldl countParenthesis (level + 1) ≤ level + (n + 1)
      rcases List.prefix_concat_iff.1 hinner with rfl | hinner
      · rw [List.foldl_append, hw.foldl_eq]
        exact Nat.le_add_right level (n + 1)
      · have := hw.foldl_le (level + 1) u hinner
        omega
  foldl_eq level := by
    rw [List.foldl_cons, List.foldl_append, hw.foldl_eq]
    rfl

end Nests

theorem Operator.symbol_ne_parenthesis (op : Operator) : op.symbol ≠ '(' ∧ op.symbol ≠ ')' := by
  cases op <;> decide

/-- The largest number of parentheses that are open at once in a text is what has been
    counted along its derivation. -/
theorem Grammar.Derivation.nests {s : Symbol} (d : Derivation s) : Nests d.nesting d.text := by
  have hempty : Nests 0 [] := .of_forall_ne fun c hc => absurd hc List.not_mem_nil
  have hoperator (blanks : Blanks) (op : Operator) :
      ∀ c ∈ blanks.val ++ [op.symbol], c ≠ '(' ∧ c ≠ ')' :=
    List.forall_mem_append.2 ⟨blanks.ne_parenthesis,
      List.forall_mem_singleton.2 op.symbol_ne_parenthesis⟩
  induction d with
  | expression minus first rest ihfirst ihrest =>
    refine Nests.append_left ?_ (ihfirst.append ihrest)
    cases minus with
    | none => exact fun c hc => absurd hc List.not_mem_nil
    | some blanks => exact hoperator blanks .sub
  | noTerm | noFactor => exact hempty
  | andTerm blanks op hop next rest ihnext ihrest
  | andFactor blanks op hop next rest ihnext ihrest =>
    rw [text, List.append_cons]
    exact Nests.append_left (hoperator blanks op) (ihnext.append ihrest)
  | term first rest ihfirst ihrest => exact ihfirst.append ihrest
  | number blanks literal =>
    refine .of_forall_ne (List.forall_mem_append.2 ⟨blanks.ne_parenthesis, ?_⟩)
    exact literal.property.toWellFormed.ne_parenthesis
  | var blanks c hc =>
    refine .of_forall_ne (List.forall_mem_append.2 ⟨blanks.ne_parenthesis, ?_⟩)
    rcases hc with rfl | rfl <;> exact List.forall_mem_singleton.2 (by decide)
  | group blanks inner closing ih =>
    -- One more is open all along what stands between the parentheses of a group.
    have hclosing := ih.append (.of_forall_ne closing.ne_parenthesis)
    rw [Nat.max_zero] at hclosing
    rw [text, ← List.append_assoc inner.text]
    exact hclosing.group.append_left blanks.ne_parenthesis

/-- What a sentence starts with never has more parentheses open than the sentence has. -/
theorem Grammar.Sentence.openParentheses_le (s : Sentence) {u : List Char} (hu : u <+: s.text) :
    openParentheses u ≤ s.expression.nesting := by
  have hnests := s.expression.nests.append (.of_forall_ne s.trailing.ne_parenthesis)
  have := hnests.foldl_le 0 u hu
  rwa [Nat.zero_add, Nat.max_zero] at this

/-! ## Reading the start of a sentence -/

theorem Error.isUngrammatical_atOperand (c : Option Char) : (atOperand c).isUngrammatical := by
  unfold atOperand
  split
  · rfl
  · split_ifs <;> rfl

theorem Error.isUngrammatical_atOperator (level : Nat) : (atOperator level).isUngrammatical := by
  unfold atOperator
  split <;> rfl

theorem Progress.IsMisplaced.isUngrammatical {cs : List Char} {p : Progress cs} {err : Error}
    (h : p.IsMisplaced err) : err.isUngrammatical := by
  cases h with
  | operand => exact Error.isUngrammatical_atOperand _
  | operator => exact Error.isUngrammatical_atOperator _

/-- The numbers in a text are finite. -/
def HasFiniteNumerals (cs : List Char) : Prop :=
  ∀ l ∈ lexemes 0 cs, ∀ n, l.token = .numeral n → n.IsFinite

namespace Reading

variable {state next last : Reading} {u w cs : List Char} {ls ls' : List Lexeme} {err : Error}
  {c : Char} {v : List Char}

/-- What has been read has finite numbers only. -/
theorem Reached.isFinite (h : Reached u ls state) :
    ∀ l ∈ ls, ∀ n, l.token = .numeral n → n.IsFinite := by
  induction h with
  | initial => exact fun l hl => absurd hl List.not_mem_nil
  | step _ blanks ht hs ih =>
    refine List.forall_mem_append.2 ⟨ih, List.forall_mem_singleton.2 fun n hn => ?_⟩
    obtain rfl := hn
    cases ht with
    | numeral hliteral =>
      cases Steps.of_step hs with
      | numeral hvalue => exact ((Numeral.value_eq_ok_iff hliteral).1 hvalue).1

/-- Reading goes on behind lexemes that can come next. -/
theorem run_append (h : (ls.map Lexeme.token).foldlM step state = .ok next) (length : Nat)
    (ls' : List Lexeme) : state.run length (ls ++ ls') = next.run length ls' := by
  induction ls generalizing state with
  | nil =>
    obtain rfl := Except.ok.inj h
    rfl
  | cons l ls ih =>
    rw [List.map_cons, List.foldlM_cons] at h
    rw [List.cons_append, run]
    cases hstep : state.step l.token with
    | error err =>
      rw [hstep] at h
      cases h
    | ok mid =>
      rw [hstep] at h
      exact ih h

/-- The parentheses open in a text that has been read are the groups around. -/
theorem foldl_countParenthesis_of_after (h : state.after cs = .ok last) :
    cs.foldl countParenthesis state.level = last.level := by
  induction htokens : tokens cs generalizing state cs with
  | nil =>
    rw [after_of_blank htokens] at h
    obtain rfl := Except.ok.inj h
    exact foldl_countParenthesis_blanks ⟨cs, isBlank_of_tokens_eq_nil htokens⟩ state.level
  | cons t ts ih =>
    obtain ⟨bs, w, rest, hbs, hw, rfl, hrest⟩ := exists_of_tokens_eq_cons htokens
    rw [← hrest] at htokens
    cases hstep : state.step t with
    | error err =>
      rw [after_of_error htokens hstep] at h
      cases h
    | ok next =>
      rw [after_of_step htokens hstep] at h
      rw [List.foldl_append, foldl_countParenthesis_blanks ⟨bs, hbs⟩, List.foldl_append,
        foldl_countParenthesis_of_step hstep hw]
      exact ih h hrest

/-- Nesting is too deep where one more group would be opened. -/
theorem awaiting_of_step_eq_nestedTooDeeply {limit : Nat}
    (h : state.step (.first c v) = .error (.nestedTooDeeply limit)) :
    ∃ outer pending, state = awaiting outer pending ∧ outer.length = maxDepth ∧ c = '(' := by
  cases state with
  | awaiting outer pending =>
    rcases error_of_step_awaiting h with ⟨n, -, -, herr⟩ | ⟨-, hlength, hc⟩ | ⟨herr, -⟩
    · cases herr
    · exact ⟨outer, pending, rfl, hlength, hc⟩
    · have := Error.isUngrammatical_atOperand (some c)
      rw [← herr] at this
      cases this
  | complete outer lead term =>
    have := Error.isUngrammatical_atOperator outer.length
    rw [← (error_of_step_complete h).1] at this
    cases this

/-- Reading goes on at a separating character. -/
theorem after_append_of_separates (hc : Numeral.Separates c) (state : Reading) (u v : List Char) :
    state.after (u ++ c :: v) = state.after u >>= fun last => last.after (c :: v) := by
  rw [after, tokens, lexemes_append_of_separates hc, List.map_append, List.foldlM_append,
    map_token_lexemes, map_token_lexemes]
  rfl

theorem exists_read_eq_error (h : initial.after cs = .error err) :
    ∃ position, Expr.read cs = .error ⟨err, position⟩ := by
  have hread : (Expr.read cs).mapError Refusal.error = initial.after cs >>= finish :=
    mapError_run initial cs.length (lexemes 0 cs)
  rw [h] at hread
  cases hexpr : Expr.read cs with
  | ok e =>
    rw [hexpr] at hread
    cases hread
  | error refusal =>
    rw [hexpr] at hread
    obtain rfl := Except.error.inj hread
    exact ⟨refusal.position, rfl⟩

end Reading

namespace Progress

variable {cs : List Char} {p : Progress cs} {refusal : Refusal} {limit : Nat}

/-- The place where nesting is too deep: the end of the text, if its tree is, or else a
    parenthesis that would open one more group. -/
theorem Refuses.eq_nestedTooDeeply (h : p.Refuses refusal)
    (herr : refusal.error = .nestedTooDeeply limit) :
    (p.rest = [] ∧ refusal.position = cs.length ∧ ∃ lead term,
      p.state = .complete [] lead term ∧ maxDepth < (lead.append term).depth) ∨
    (refusal.position = p.position ∧ ∃ outer pending v, p.state = .awaiting outer pending ∧
      outer.length = maxDepth ∧ p.rest = '(' :: v) := by
  cases h with
  | @atEnd err hrest hfinish =>
    obtain rfl : err = .nestedTooDeeply limit := herr
    refine .inl ⟨hrest, rfl, ?_⟩
    cases hstate : p.state with
    | awaiting outer pending =>
      rw [hstate] at hfinish
      cases hfinish
    | complete outer lead term =>
      rw [hstate] at hfinish
      cases outer with
      | cons => cases hfinish
      | nil =>
        rw [Reading.finish] at hfinish
        split at hfinish
        · next hdepth => exact ⟨lead, term, rfl, hdepth⟩
        · cases hfinish
  | @atLexeme err c v l hrest hl htoken hstart hstep =>
    obtain rfl : err = .nestedTooDeeply limit := herr
    obtain ⟨outer, pending, hstate, hlength, rfl⟩ :=
      Reading.awaiting_of_step_eq_nestedTooDeeply hstep
    refine .inr ⟨?_, outer, pending, v, hstate, hlength, hrest⟩
    have hnumeral (n : Numeral) : l.token ≠ .numeral n := by
      rw [htoken]
      exact Token.ofChar_ne_numeral '(' n
    exact (Reading.refusalPosition_of_ne_numeral hnumeral).trans hstart

/-- With nothing left, the whole text has been read. -/
theorem after_eq_of_rest_eq_nil (hrest : p.rest = []) : Reading.initial.after cs = .ok p.state := by
  have hlexemes := p.lexemes_eq
  rw [hrest, lexemes_nil, List.append_nil] at hlexemes
  rw [Reading.after, tokens, hlexemes]
  exact p.reached.foldlM_eq

theorem openParentheses_succ_position {v : List Char} (hrest : p.rest = '(' :: v) :
    openParentheses (cs.take (p.position + 1)) = p.state.level + 1 := by
  rw [List.take_add_one, p.getElem?_position, hrest, ← p.openParentheses_position]
  exact List.foldl_append

end Progress

namespace Reading

variable {u : List Char} {last : Reading}

theorem after_text_of_prefix {s : Sentence} (hx : u ++ ['x'] <+: s.text) :
    ∃ more, initial.after s.text = initial.after u >>= fun last => last.after ('x' :: more) := by
  have hseparates : Numeral.Separates 'x' := ⟨by decide, by decide, by decide, by decide⟩
  obtain ⟨more, hmore⟩ := hx
  refine ⟨more, ?_⟩
  rw [← hmore, List.append_assoc]
  exact after_append_of_separates hseparates initial u more

/-- Nothing is wrong with the start of a sentence: no token is misplaced in it, no number of
    it is infinite, and the limit is kept to by a sentence that starts like it. -/
theorem exists_after_eq_ok {s s' : Sentence} (hx : u ++ ['x'] <+: s.text) (hu : u <+: s'.text)
    (hnesting : s'.expression.nesting ≤ maxDepth) (hfinite : HasFiniteNumerals u) :
    ∃ last, initial.after u = .ok last := by
  obtain ⟨more, htext⟩ := after_text_of_prefix hx
  cases hafter : initial.after u with
  | ok last => exact ⟨last, rfl⟩
  | error err =>
    exfalso
    rw [hafter] at htext
    obtain ⟨position, hread⟩ := exists_read_eq_error hafter
    obtain ⟨p, hp⟩ := Expr.exists_refuses hread
    rcases hp.classify with ⟨l, hl, n, hn, hnot, -⟩ | hdeep | ⟨-, hmisplaced⟩
    · exact hnot (hfinite l hl n hn)
    · rcases hp.eq_nestedTooDeeply hdeep with
        ⟨hrest, -⟩ | ⟨-, outer, pending, v, hstate, hlength, hrest⟩
      · rw [Progress.after_eq_of_rest_eq_nil hrest] at hafter
        cases hafter
      · have hopen := Progress.openParentheses_succ_position hrest
        have hle := s'.openParentheses_le ((List.take_prefix (p.position + 1) u).trans hu)
        rw [hopen, hstate, level, hlength] at hle
        exact Nat.not_succ_le_self _ (Nat.le_trans hle hnesting)
    · have herr := s.not_isUngrammatical htext
      rw [hmisplaced.isUngrammatical] at herr
      cases herr

/-- Where a sentence goes on with an operand, nothing but an operand has to come. -/
theorem eq_awaiting_of_prefix {s : Sentence} (hx : u ++ ['x'] <+: s.text)
    (hafter : initial.after u = .ok last) : ∃ outer pending, last = awaiting outer pending := by
  obtain ⟨more, htext⟩ := after_text_of_prefix hx
  rw [hafter] at htext
  cases last with
  | awaiting outer pending => exact ⟨outer, pending, rfl⟩
  | complete outer lead term =>
    -- Behind an operand, the variable would be misplaced.
    exfalso
    have hvar : tokens ('x' :: more) = .var :: tokens more := tokens_cons rfl (by decide)
    have hstep : (complete outer lead term).step .var = .error (.atOperator outer.length) := by
      cases outer <;> rfl
    have herr := s.not_isUngrammatical (htext.trans (after_of_error hvar hstep))
    rw [Error.isUngrammatical_atOperator] at herr
    cases herr

end Reading

/-! ## Both ways to nest too deep -/

/-- An operand can come at a place of a text: the variable could stand there. -/
def ExpectsOperand (cs : List Char) (position : Nat) : Prop :=
  ∃ s : Sentence, cs.take position ++ ['x'] <+: s.text

/-- A parenthesis opens one more group than may be open at once, where an operand has to come
    and nothing has been wrong. -/
structure OpensTooMany (cs : List Char) (position : Nat) : Prop where
  getElem?_eq : cs[position]? = some '('
  expects : ExpectsOperand cs position
  open_eq : openParentheses (cs.take position) = maxDepth
  starts : ∃ s : Sentence, cs.take position <+: s.text ∧ s.expression.nesting ≤ maxDepth
  finite : HasFiniteNumerals (cs.take position)

/-- A text is a sentence that could be read but for the depth of its tree. -/
def IsTooDeep (cs : List Char) : Prop :=
  ∃ s : Sentence, s.text = cs ∧ s.expression.nesting ≤ maxDepth ∧
    (∀ n ∈ s.expression.literals, n.val.IsFinite) ∧ maxDepth < s.tree.depth

section Read

variable {cs u v : List Char} {position : Nat}

theorem read_append_leftParenthesis {outer : List Pending} {pending : Pending}
    (h : Reading.initial.after u = .ok (.awaiting outer pending))
    (hlength : outer.length = maxDepth) (v : List Char) :
    Expr.read (u ++ '(' :: v) = .error ⟨.nestedTooDeeply maxDepth, u.length⟩ := by
  have hseparates : Numeral.Separates '(' := ⟨by decide, by decide, by decide, by decide⟩
  have hstep : (Reading.awaiting outer pending).step (.ofChar '(') =
      .error (.nestedTooDeeply maxDepth) := if_pos hlength
  rw [Expr.read, lexemes_append_of_separates hseparates, Reading.run_append h,
    lexemes_cons _ rfl (by decide), Nat.zero_add, Reading.run, hstep]
  rfl

theorem OpensTooMany.read_eq (h : OpensTooMany cs position) :
    Expr.read cs = .error ⟨.nestedTooDeeply maxDepth, position⟩ := by
  obtain ⟨s, hx⟩ := h.expects
  obtain ⟨s', hu, hnesting⟩ := h.starts
  obtain ⟨last, hafter⟩ := Reading.exists_after_eq_ok hx hu hnesting h.finite
  obtain ⟨outer, pending, rfl⟩ := Reading.eq_awaiting_of_prefix hx hafter
  have hlevel : openParentheses (cs.take position) = outer.length :=
    Reading.foldl_countParenthesis_of_after hafter
  obtain ⟨hlt, hc⟩ := List.getElem?_eq_some_iff.1 h.getElem?_eq
  have hread := read_append_leftParenthesis hafter (hlevel.symm.trans h.open_eq)
    (cs.drop (position + 1))
  rwa [← hc, ← List.drop_eq_getElem_cons hlt, List.take_append_drop, List.length_take_of_le
    (Nat.le_of_lt hlt)] at hread

theorem IsTooDeep.read_eq (h : IsTooDeep cs) :
    Expr.read cs = .error ⟨.nestedTooDeeply maxDepth, cs.length⟩ := by
  obtain ⟨s, rfl, hnesting, hfinite, hdepth⟩ := h
  obtain ⟨lead, term, htree, hafter⟩ :=
    Sentence.exists_after (s := s) ⟨by rwa [Nat.zero_add], hfinite⟩
  have hfinish : (Reading.complete [] lead term).finish = .error (.nestedTooDeeply maxDepth) := by
    rw [Reading.finish, htree]
    exact if_pos hdepth
  rw [Expr.read, ← List.append_nil (lexemes 0 s.text), Reading.run_append hafter, Reading.run,
    hfinish]
  rfl

/-- What has been read with no group around is an expression. -/
theorem Reading.Spelling.exists_expression {lead : Lead} {term : Expr}
    (h : (Reading.complete [] lead term).Spelling u) :
    ∃ e : Derivation .expression, e.Fits 0 ∧ e.text = u ∧ e.tree = lead.append term := by
  cases h with
  | complete ho hl hd =>
    cases ho
    exact hl.exists_expression hd

theorem Progress.hasFiniteNumerals (p : Progress cs) {outer : List Pending} {pending : Pending}
    (hstate : p.state = .awaiting outer pending) : HasFiniteNumerals (cs.take p.position) := by
  have hends : Reading.EndsAt p.lexemes p.blanks.val := by
    intro l hl n hn
    obtain ⟨outer', lead, term, hcomplete⟩ := p.reached.exists_complete hl hn
    rw [hstate] at hcomplete
    cases hcomplete
  have hblanks : Derivatives.lexemes p.read.length p.blanks.val = [] := by
    rw [← List.append_nil p.blanks.val, lexemes_blanks_append _ p.blanks.property, lexemes_nil]
  rw [HasFiniteNumerals, p.take_position, p.reached.lexemes_append hends, hblanks,
    List.append_nil]
  exact p.reached.isFinite

/-- A text is refused for nesting too deep in these two cases only. -/
theorem Expr.read_eq_nestedTooDeeply_iff :
    Expr.read cs = .error ⟨.nestedTooDeeply maxDepth, position⟩ ↔
      OpensTooMany cs position ∨ IsTooDeep cs ∧ position = cs.length := by
  constructor
  · intro h
    obtain ⟨p, hp⟩ := Expr.exists_refuses h
    have hspelling := p.reached.spelling
    rcases hp.eq_nestedTooDeeply rfl with
      ⟨hrest, hposition, lead, term, hstate, hdepth⟩ |
        ⟨hposition, outer, pending, v, hstate, hlength, hrest⟩
    · -- At the end, what has been read is an expression that fits but for its depth.
      rw [hstate] at hspelling
      obtain ⟨e, hfits, htext, htree⟩ := hspelling.exists_expression
      have hcs := p.text_eq
      rw [hrest, List.append_nil, ← htext] at hcs
      rw [← htree] at hdepth
      refine .inr ⟨⟨⟨e, p.blanks⟩, hcs, ?_, hfits.2, hdepth⟩, hposition⟩
      exact (Nat.zero_add _).symm.trans_le hfits.1
    · -- At a parenthesis, what has been read can be completed to a sentence that fits.
      rw [hstate] at hspelling
      obtain ⟨s, hfits, hs⟩ := hspelling.exists_fits_of_awaiting p.blanks
      rw [← p.take_position] at hs
      obtain rfl : position = p.position := hposition
      refine .inl ⟨?_, ⟨s, hs⟩, ?_, ⟨s, (List.prefix_append _ _).trans hs, ?_⟩,
        p.hasFiniteNumerals hstate⟩
      · rw [p.getElem?_position, hrest]
        rfl
      · rw [p.openParentheses_position, hstate]
        exact hlength
      · exact (Nat.zero_add _).symm.trans_le hfits.1
  · rintro (h | ⟨h, rfl⟩)
    · exact h.read_eq
    · exact h.read_eq

end Read

/-! ## Lines -/

/-- A line is refused for nesting too deep just where one more parenthesis than may be open
    opens a group, or at its end, if all is in order but the depth of its tree; the
    parentheses are counted as they are open whenever a factor is called for; and what is
    read is not too deep. -/
theorem Cursor.readExpr_eq_nestedTooDeeply_iff (line : String) :
    (∀ c, (ofLine line).readExpr = (.error (.nestedTooDeeply maxDepth), c) ↔
      (∃ position, OpensTooMany (lineCharacters line) position ∧
        c = (ofLine line).advanceBy position) ∨
      IsTooDeep (lineCharacters line) ∧ c = (ofLine line).toEnd) ∧
    (∀ levels, 3 * (lineCharacters line).length + 3 ≤ levels →
      (Descent.line levels { cursor := ofLine line }).result =
        some ((ofLine line).readExpr.1.map Formula.ofExpr, (ofLine line).readExpr.2) ∧
      ∃ s, (Descent.line levels { cursor := ofLine line }).state? = some s ∧
        ∀ call ∈ s.calls,
          call.nesting = openParentheses ((lineCharacters line).take call.position)) ∧
    ∀ f, Formula.parse line = .ok f → f.depth ≤ maxDepth := by
  refine ⟨fun c => ⟨fun h => ?_, ?_⟩, fun levels hlevels => ⟨?_, ?_⟩,
    fun f hf => Formula.depth_le_of_parse hf⟩
  · obtain ⟨position, hread, rfl⟩ := read_of_readExpr_eq_error h
    rcases Expr.read_eq_nestedTooDeeply_iff.1 hread with hopens | ⟨hdeep, rfl⟩
    · exact .inl ⟨position, hopens, rfl⟩
    · exact .inr ⟨hdeep, rfl⟩
  · rintro (⟨position, hopens, rfl⟩ | ⟨hdeep, rfl⟩)
    · exact readExpr_of_error (c := ofLine line) hopens.read_eq
    · exact readExpr_of_error (c := ofLine line) hdeep.read_eq
  · exact Descent.result_line (ofLine line) hlevels
  · obtain ⟨s, hs, hcounts, hcharacters⟩ := Descent.exists_counts_line line hlevels
    refine ⟨s, hs, ?_⟩
    rw [← hcharacters]
    exact hcounts.calls_eq

/-- Of 513 parentheses that are opened in a row, the last one is refused; those of groups side
    by side are not counted together. -/
theorem Cursor.readExpr_eq_nestedTooDeeply_iff_parentheses :
    OpensTooMany (lineCharacters (String.ofList (List.replicate 513 '('))) 512 ∧
      (∃ s, (Descent.line 30 { cursor := ofLine "(x)*(2)\n" }).state? = some s ∧
        ∀ call ∈ s.calls, call.nesting =
          openParentheses ((lineCharacters "(x)*(2)\n").take call.position)) ∧
      ∃ f, Formula.parse "(x)*(2)\n" = .ok f ∧ f.depth ≤ maxDepth := by
  have hcharacters : lineCharacters (String.ofList (List.replicate 513 '(')) =
      List.replicate 513 '(' := by
    have hdrop : (List.replicate 513 '(').dropWhile isTerminator = List.replicate 513 '(' := by
      rw [List.dropWhile_replicate]
      rfl
    rw [lineCharacters, String.toList_ofList, List.reverse_replicate, hdrop,
      List.reverse_replicate]
  have hread : Expr.read (List.replicate 513 '(') = .error ⟨.nestedTooDeeply maxDepth, 512⟩ := by
    decide +kernel
  have hparse : Expr.parse "(x)*(2)\n" = .ok (.binary .mul .var (.constant 2.0)) := by
    decide +kernel
  obtain ⟨-, hdescent, hdepth⟩ := readExpr_eq_nestedTooDeeply_iff "(x)*(2)\n"
  refine ⟨?_, (hdescent 30 (by decide)).2, _, Formula.parse_of_parse hparse,
    hdepth _ (Formula.parse_of_parse hparse)⟩
  obtain ⟨hrefused, -⟩ := readExpr_eq_nestedTooDeeply_iff (String.ofList (List.replicate 513 '('))
  generalize String.ofList (List.replicate 513 '(') = line at hcharacters hrefused ⊢
  rw [← hcharacters] at hread
  have hposition (n : Nat) : ((ofLine line).advanceBy n).position = min n 513 := by
    rw [position_advanceBy, ofLine, hcharacters, List.length_replicate]
    exact Nat.zero_add _
  have hreadExpr : (ofLine line).readExpr =
      (.error (.nestedTooDeeply maxDepth), (ofLine line).advanceBy 512) :=
    readExpr_of_error (c := ofLine line) hread
  rcases (hrefused _).1 hreadExpr with ⟨position, hopens, hcursor⟩ | ⟨-, hcursor⟩
  · have hmin := congrArg Cursor.position hcursor
    rw [hposition, hposition] at hmin
    obtain rfl : position = 512 := by omega
    exact hopens
  · have hmin := congrArg Cursor.position hcursor
    rw [toEnd, hposition, hposition, ofLine, hcharacters, List.length_replicate] at hmin
    cases hmin

end Derivatives
