import Derivatives.Proofs.Descent

/-!
# Calls come back

The descent comes to an end: with `n` characters left, no call goes deeper than `3 * n + 3`
levels, as three calls at most are made in a row without passing a character (`returns`).

On the way, the line stays what it was, the cursor does not move back, and the counter of
the groups around is the number of parentheses passed that are open (`Counts`): what one
step keeps to (`advances_of_advanceBy`), all calls do (`Outcome.Moves`). So whenever a
factor is called for, the counter is right, however many groups have been left before
(`exists_counts_line`).
-/

namespace Derivatives

open Number

namespace Descent

/-! ## The way from one state to the next -/

/-- The counter is the number of parentheses opened and not closed in what has been
    passed, and so it was when a factor was called for. -/
structure Counts (s : Descent) : Prop where
  nesting_eq : s.nesting = openParentheses s.cursor.before.reverse
  calls_eq : ∀ call ∈ s.calls,
    call.nesting = openParentheses (s.cursor.characters.take call.position)

/-- The way from one state to a later one. -/
structure Advances (s s' : Descent) : Prop where
  /-- The line stays what it was. -/
  characters_eq : s'.cursor.characters = s.cursor.characters
  /-- The cursor does not move back. -/
  length_le : s'.cursor.after.length ≤ s.cursor.after.length
  /-- The counter is kept in step. -/
  counts : s.Counts → s'.Counts

variable {s t u : Descent}

theorem Advances.refl (s : Descent) : s.Advances s := ⟨rfl, Nat.le_refl _, id⟩

theorem Advances.trans (h : s.Advances t) (h' : t.Advances u) : s.Advances u :=
  ⟨h'.characters_eq.trans h.characters_eq, Nat.le_trans h'.length_le h.length_le,
    h'.counts ∘ h.counts⟩

/-- Characters are passed, and the counter is put to what they make of it. -/
theorem advances_of_advanceBy {n : Nat} (hcursor : t.cursor = s.cursor.advanceBy n)
    (hnesting : t.nesting = (s.cursor.after.take n).foldl countParenthesis s.nesting)
    (hcalls : t.calls = s.calls) : s.Advances t := by
  have hcharacters : t.cursor.characters = s.cursor.characters := by
    rw [hcursor, Cursor.characters_advanceBy]
  refine ⟨hcharacters, ?_, fun h => ⟨?_, ?_⟩⟩
  · rw [hcursor, Cursor.advanceBy, List.length_drop]
    exact Nat.sub_le _ _
  · rw [hnesting, hcursor, Cursor.advanceBy, List.reverse_append, List.reverse_reverse,
      openParentheses, List.foldl_append, h.nesting_eq, openParentheses]
  · rw [hcalls, hcharacters]
    exact h.calls_eq

theorem advances_skipBlanks (s : Descent) : s.Advances s.skipBlanks := by
  refine advances_of_advanceBy (n := (s.cursor.after.takeWhile isBlank).length) rfl ?_ rfl
  rw [← List.prefix_iff_eq_take.1 (List.takeWhile_prefix isBlank)]
  exact (Reading.foldl_countParenthesis_blanks
    ⟨_, fun c hc => List.mem_takeWhile_imp hc⟩ s.nesting).symm

theorem advances_note (s : Descent) : s.Advances s.note := by
  refine ⟨rfl, Nat.le_refl _, fun h => ⟨h.nesting_eq, List.forall_mem_cons.2 ⟨?_, h.calls_eq⟩⟩⟩
  refine h.nesting_eq.trans (congrArg openParentheses ?_)
  exact (List.take_left' List.length_reverse).symm

theorem advances_add (s : Descent) (node : Node Nat) :
    s.Advances { s with graph := (s.graph.add node).1 } :=
  ⟨rfl, Nat.le_refl _, fun h => ⟨h.nesting_eq, h.calls_eq⟩⟩

/-- A character is passed, and the counter is put to what it makes of it. -/
theorem advances_of_peek {c : Char} (h : s.peek = c) (hc : c ≠ endOfLine)
    (hcursor : t.cursor = s.cursor.advance) (hnesting : t.nesting = countParenthesis s.nesting c)
    (hcalls : t.calls = s.calls) :
    s.Advances t ∧ t.cursor.after.length + 1 = s.cursor.after.length := by
  have hafter := s.cursor.after_eq_cons_of_peek h hc
  refine ⟨advances_of_advanceBy hcursor ?_ hcalls, ?_⟩
  · rw [hafter]
    exact hnesting
  · rw [hafter, hcursor]
    rfl

theorem advances_of_operator {op : Operator} (h : s.peek = op.symbol) :
    s.Advances s.advance ∧ s.advance.cursor.after.length + 1 = s.cursor.after.length :=
  advances_of_peek h (by cases op <;> decide) rfl (by cases op <;> rfl) rfl

theorem advances_of_number (hd : s.peek.isDigit) (hcursor : t.cursor = s.cursor.readNumber.2)
    (hnesting : t.nesting = s.nesting) (hcalls : t.calls = s.calls) :
    s.Advances t ∧ t.cursor.after.length + 1 ≤ s.cursor.after.length := by
  have hafter := s.cursor.after_eq_cons_of_peek rfl fun h => absurd hd (by rw [peek, h]; decide)
  have hpos : 0 < (Numeral.scan s.cursor.after).1.text.length := by
    rw [hafter]
    exact Numeral.length_text_scan_pos _ hd
  refine ⟨advances_of_advanceBy hcursor ?_ hcalls, ?_⟩
  · rw [hnesting, ← List.prefix_iff_eq_take.1 ⟨_, Numeral.text_scan s.cursor.after⟩]
    exact (Reading.foldl_countParenthesis_text (Numeral.wellFormed_scan _) s.nesting).symm
  · have hlength := Numeral.length_scan s.cursor.after
    rw [hcursor]
    change (s.cursor.after.drop _).length + 1 ≤ _
    rw [List.length_drop]
    omega

/-! ## Calls -/

/-- The outcome of a call that comes back, `k` characters further on at least if it has not
    been refused. -/
def Outcome.Moves (k : Nat) (s : Descent) (o : Outcome) : Prop :=
  o.Satisfies False
    (fun _ t => s.Advances t ∧ t.cursor.after.length + k ≤ s.cursor.after.length)
    (fun _ t => s.Advances t)

section Moves

variable {o : Outcome} {next : Nat → Descent → Outcome} {k : Nat}

theorem Outcome.Moves.of_advances (h : o.Moves k t) (hs : s.Advances t) : o.Moves k s :=
  Satisfies.imp h (fun _ _ ⟨hu, hle⟩ => ⟨hs.trans hu, Nat.le_trans hle hs.length_le⟩)
    fun _ _ hu => hs.trans hu

theorem Outcome.Moves.of_skipBlanks (h : o.Moves k s.skipBlanks) : o.Moves k s :=
  h.of_advances s.advances_skipBlanks

theorem Outcome.Moves.zero (h : o.Moves k s) : o.Moves 0 s :=
  Satisfies.imp h (fun _ _ ⟨ht, hle⟩ => ⟨ht, Nat.le_of_add_right_le hle⟩) fun _ _ ht => ht

/-- What comes after a call that has moved on only has to come back. -/
theorem Outcome.Moves.andThen (h : o.Moves k s)
    (hnext : ∀ place t, t.cursor.after.length + k ≤ s.cursor.after.length →
      (next place t).Moves 0 t) : (o.andThen next).Moves k s := by
  refine Satisfies.andThen h (fun place t ⟨ht, hle⟩ => ?_) fun _ _ ht => ht
  refine Satisfies.imp (hnext place t hle) (fun _ u ⟨hu, hle'⟩ => ⟨ht.trans hu, ?_⟩)
    fun _ _ hu => ht.trans hu
  exact Nat.le_trans (Nat.add_le_add_right hle' k) hle

theorem moves_push (s : Descent) (node : Node Nat) : (s.push node).Moves 0 s :=
  ⟨s.advances_add node, Nat.le_refl _⟩

theorem moves_number (hd : s.peek.isDigit) : s.number.Moves 1 s := by
  unfold number
  split
  · next value c hread =>
    obtain ⟨hs, hlength⟩ := advances_of_number (t := { s with cursor := c }) hd (by rw [hread])
      rfl rfl
    exact ⟨hs.trans (advances_add _ _), hlength⟩
  · next err c hread =>
    exact (advances_of_number (t := { s with cursor := c }) hd (by rw [hread]) rfl rfl).1

theorem moves_leave (place : Nat) (s : Descent) : (leave place s).Moves 0 s := by
  refine Outcome.Moves.of_skipBlanks ?_
  unfold leave
  split
  · next hpeek =>
    obtain ⟨hs, hlength⟩ := advances_of_peek (t := { s.skipBlanks.advance with
      nesting := s.nesting - 1 }) hpeek (by decide) rfl rfl rfl
    exact ⟨hs, Nat.le_of_succ_le (Nat.le_of_eq hlength)⟩
  · exact .refl _

/-- A chain goes on if its operands move on. -/
theorem moves_chain {symbols : List Char} {operand : Descent → Outcome}
    {rest : Nat → Descent → Outcome} {left : Nat}
    (hsymbols : ∀ c ∈ symbols, (Operator.ofSymbol? c).isSome)
    (hoperand : ∀ t : Descent, t.cursor.after.length < s.cursor.after.length →
      (operand t).Moves 1 t)
    (hrest : ∀ place, ∀ t : Descent, t.cursor.after.length + 1 < s.cursor.after.length →
      (rest place t).Moves 0 t) : (chain symbols operand rest left s).Moves 0 s := by
  have hblanks := s.advances_skipBlanks.length_le
  refine Outcome.Moves.of_skipBlanks ?_
  obtain ⟨-, hchain⟩ | ⟨op, hpeek, -, hchain⟩ := chain_cases hsymbols operand rest left s
  · rw [hchain]
    exact ⟨.refl _, Nat.le_refl _⟩
  · obtain ⟨hs, hlength⟩ := advances_of_operator hpeek
    rw [hchain]
    refine Outcome.Moves.of_advances (Outcome.Moves.zero (k := 1) ?_) hs
    refine (hoperand s.skipBlanks.advance (by omega)).andThen fun right t ht => ?_
    exact (moves_push t _).andThen fun place u hu => hrest place u (by omega)

end Moves

/-- Calls come back if they may go deep enough for the characters that are left. -/
structure Returns (levels : Nat) : Prop where
  expression : ∀ s : Descent, 3 * s.cursor.after.length + 3 ≤ levels →
    (expression levels s).Moves 1 s
  terms : ∀ left, ∀ s : Descent, 3 * s.cursor.after.length + 1 ≤ levels →
    (terms levels left s).Moves 0 s
  term : ∀ s : Descent, 3 * s.cursor.after.length + 2 ≤ levels → (term levels s).Moves 1 s
  factors : ∀ left, ∀ s : Descent, 3 * s.cursor.after.length + 1 ≤ levels →
    (factors levels left s).Moves 0 s
  factor : ∀ s : Descent, 3 * s.cursor.after.length + 1 ≤ levels → (factor levels s).Moves 1 s

section Returns

variable {levels : Nat}

theorem Returns.expression_succ (h : Returns levels)
    (hs : 3 * s.cursor.after.length + 3 ≤ levels + 1) :
    (Descent.expression (levels + 1) s).Moves 1 s := by
  have hblanks := s.advances_skipBlanks.length_le
  rw [Descent.expression]
  refine Outcome.Moves.of_skipBlanks ?_
  split
  · next hpeek =>
    have hminus : s.skipBlanks.peek = Operator.sub.symbol := hpeek
    obtain ⟨hadvances, hlength⟩ := advances_of_operator hminus
    refine Outcome.Moves.of_advances ?_ hadvances
    refine (h.term _ (by omega)).andThen fun first t ht => ?_
    exact (moves_push t _).andThen fun place u hu => h.terms place u (by omega)
  · exact (h.term _ (by omega)).andThen fun first t ht => h.terms first t (by omega)

theorem Returns.term_succ (h : Returns levels) (hs : 3 * s.cursor.after.length + 2 ≤ levels + 1) :
    (Descent.term (levels + 1) s).Moves 1 s := by
  have hblanks := s.advances_skipBlanks.length_le
  rw [Descent.term]
  refine Outcome.Moves.of_skipBlanks ?_
  exact (h.factor _ (by omega)).andThen fun first t ht => h.factors first t (by omega)

theorem Returns.factor_succ (h : Returns levels)
    (hs : 3 * s.cursor.after.length + 1 ≤ levels + 1) :
    (Descent.factor (levels + 1) s).Moves 1 s := by
  have hblanks : s.skipBlanks.note.cursor.after.length ≤ s.cursor.after.length :=
    s.advances_skipBlanks.length_le
  rw [Descent.factor]
  refine Outcome.Moves.of_skipBlanks (Outcome.Moves.of_advances ?_ (advances_note _))
  generalize s.skipBlanks.note = t at hblanks
  split_ifs with hd hx hleft hnesting
  · exact moves_number hd
  · obtain ⟨c, hpeek, hc, hlevel⟩ : ∃ c, t.peek = c ∧ c ≠ endOfLine ∧
        countParenthesis t.nesting c = t.nesting := by
      rcases hx with hx | hx <;> exact ⟨_, hx, by decide, rfl⟩
    obtain ⟨hadvances, hlength⟩ := advances_of_peek (t := t.advance) hpeek hc rfl hlevel.symm rfl
    exact ⟨hadvances.trans (advances_add _ _), Nat.le_of_eq hlength⟩
  · exact .refl _
  · obtain ⟨hadvances, hlength⟩ := advances_of_peek (t := t.enter) hleft (by decide) rfl rfl rfl
    refine Outcome.Moves.of_advances ?_ hadvances
    exact (h.expression t.enter (by omega)).andThen fun place u _ => moves_leave place u
  · exact .refl _

end Returns

theorem returns (levels : Nat) : Returns levels := by
  induction levels with
  | zero =>
    exact ⟨fun s h => absurd h (by omega), fun _ s h => absurd h (by omega),
      fun s h => absurd h (by omega), fun _ s h => absurd h (by omega),
      fun s h => absurd h (by omega)⟩
  | succ levels ih =>
    exact {
      expression := fun s h => ih.expression_succ h
      terms := fun left s h => moves_chain isSome_of_mem_additive
        (fun t ht => ih.term t (by omega)) fun place t ht => ih.terms place t (by omega)
      term := fun s h => ih.term_succ h
      factors := fun left s h => moves_chain isSome_of_mem_multiplicative
        (fun t ht => ih.factor t (by omega)) fun place t ht => ih.factors place t (by omega)
      factor := fun s h => ih.factor_succ h }

/-- A call for a line comes back. -/
theorem satisfies_line {levels : Nat} (h : 3 * s.cursor.after.length + 3 ≤ levels) :
    (line levels s).Satisfies False (fun _ t => s.Advances t) (fun _ t => s.Advances t) := by
  refine Outcome.Satisfies.andThen ((returns levels).expression s h) (fun root t ⟨ht, _⟩ => ?_)
    fun _ _ ht => ht
  have hblanks := ht.trans t.advances_skipBlanks
  split_ifs
  · exact hblanks
  · exact hblanks
  · exact hblanks

/-- Whatever a call for a line comes to, the counter has been kept in step. -/
theorem exists_counts_line {levels : Nat} (text : String)
    (h : 3 * (lineCharacters text).length + 3 ≤ levels) :
    ∃ t, (line levels { cursor := .ofLine text }).state? = some t ∧ t.Counts ∧
      t.cursor.characters = lineCharacters text := by
  have hcounts : Counts { cursor := .ofLine text } := ⟨rfl, nofun⟩
  have hmoves := satisfies_line (s := { cursor := .ofLine text }) h
  cases hline : line levels { cursor := .ofLine text } with
  | done root t =>
    rw [hline] at hmoves
    exact ⟨t, rfl, hmoves.counts hcounts, hmoves.characters_eq⟩
  | refused err t =>
    rw [hline] at hmoves
    exact ⟨t, rfl, hmoves.counts hcounts, hmoves.characters_eq⟩
  | exhausted =>
    rw [hline] at hmoves
    exact hmoves.elim

end Descent

end Derivatives
