import Derivatives.Proofs.Expr.Reading
import Derivatives.Proofs.Grammar

/-!
# Sentences are read

The text of a derivation, in front of any text that does not go on with its last
number, takes the reading to the state after what it stands for
(`Derivation.isRead`): what that state is depends on the symbol
(`Derivation.IsRead`). So a readable sentence is read as the expression it stands
for (`Sentence.Readable.exists_after`).
-/

namespace Derivatives.Grammar

open Number Reading

variable {s : Symbol} {outer : List Pending} {rest : List Char}

/-- Inside of the groups `outer`, reading gets past the text of a derivation, to the
    state in which what it stands for has been taken in. -/
def Derivation.IsRead (outer : List Pending) (rest : List Char) :
    {s : Symbol} → Derivation s → Prop
  | .expression, d => ∃ lead term, lead.append term = d.tree ∧
      (awaiting outer {}).after (d.text ++ rest) = (complete outer lead term).after rest
  | .terms, d => ∀ lead term, ∃ lead' term', lead'.append term' = d.tree (lead.append term) ∧
      (complete outer lead term).after (d.text ++ rest) = (complete outer lead' term').after rest
  | .term, d => ∀ lead, (awaiting outer { lead }).after (d.text ++ rest) =
      (complete outer lead d.tree).after rest
  | .factors, d => ∀ lead term, (complete outer lead term).after (d.text ++ rest) =
      (complete outer lead (d.tree term)).after rest
  | .factor, d => ∀ pending, (awaiting outer pending).after (d.text ++ rest) =
      (afterOperand outer pending d.tree).after rest

namespace Derivation

/-! ## Sums -/

section Terms

variable {first : Derivation .term} {more : Derivation .terms}

theorem IsRead.expression (minus : Option Blanks) (hfirst : first.IsRead outer (more.text ++ rest))
    (hmore : more.IsRead outer rest) : (expression minus first more).IsRead outer rest := by
  -- The first term is read behind its minus sign, and the others go on from there.
  cases minus with
  | none =>
    obtain ⟨lead, term, htree, hstate⟩ := hmore .start first.tree
    refine ⟨lead, term, htree, ?_⟩
    rw [text, Option.elim_none, List.nil_append, List.append_assoc, ← hstate]
    exact hfirst .start
  | some blanks =>
    obtain ⟨lead, term, htree, hstate⟩ := hmore .minus first.tree
    refine ⟨lead, term, htree, ?_⟩
    rw [text, Option.elim_some, List.append_assoc, List.append_assoc, List.append_assoc,
      ← hstate, ← hfirst .minus]
    exact after_blanks_operator blanks.property step_minus

theorem IsRead.andTerm (blanks : Blanks) {op : Operator} (hop : op.isAdditive = true)
    (hfirst : first.IsRead outer (more.text ++ rest)) (hmore : more.IsRead outer rest) :
    (andTerm blanks op hop first more).IsRead outer rest := by
  intro lead term
  have hread := hfirst (.sum (lead.append term) op)
  obtain ⟨lead', term', htree, hstate⟩ := hmore (.sum (lead.append term) op) first.tree
  refine ⟨lead', term', htree, ?_⟩
  rw [text, List.append_assoc, List.cons_append, List.append_assoc, ← hstate, ← hread]
  exact after_blanks_operator blanks.property (step_of_isAdditive hop)

end Terms

/-! ## Products -/

section Factors

variable {first : Derivation .factor} {more : Derivation .factors}

theorem IsRead.term (hfirst : first.IsRead outer (more.text ++ rest))
    (hmore : more.IsRead outer rest) : (term first more).IsRead outer rest := by
  intro lead
  have hread := hfirst { lead }
  rw [text, List.append_assoc, hread]
  exact hmore lead first.tree

theorem IsRead.andFactor (blanks : Blanks) {op : Operator} (hop : op.isAdditive = false)
    (hfirst : first.IsRead outer (more.text ++ rest)) (hmore : more.IsRead outer rest) :
    (andFactor blanks op hop first more).IsRead outer rest := by
  intro lead term
  have hread := hfirst { lead, product := some (term, op) }
  have hstate := hmore lead (.binary op term first.tree)
  rw [text, List.append_assoc, List.cons_append, List.append_assoc, tree, ← hstate]
  exact (after_blanks_operator blanks.property (step_of_not_isAdditive hop)).trans hread

end Factors

/-! ## Factors -/

theorem isRead_number (blanks : Blanks) (literal : Literal) (hfinite : literal.val.IsFinite)
    (hrest : Numeral.Stops rest) : (number blanks literal).IsRead outer rest := by
  intro pending
  rw [text, List.append_assoc]
  exact after_blanks_literal blanks.property literal.property hrest
    (step_numeral literal.property hfinite)

theorem isRead_var (blanks : Blanks) {c : Char} (hc : c = 'x' ∨ c = 'X') :
    (var blanks c hc).IsRead outer rest := by
  intro pending
  rw [text, List.append_assoc]
  rcases hc with rfl | rfl <;> exact after_blanks_cons blanks.property rfl (by decide) rfl

/-- Inside of the parentheses, there is one group more around, and its end brings back what is
    pending. -/
theorem IsRead.group (blanks closing : Blanks) {inner : Derivation .expression}
    (hlt : outer.length < maxDepth)
    (hinner : ∀ pending, inner.IsRead (pending :: outer) (closing.val ++ ')' :: rest)) :
    (group blanks inner closing).IsRead outer rest := by
  intro pending
  obtain ⟨lead, term, htree, hstate⟩ := hinner pending
  have hopen : (awaiting outer pending).after
        (blanks.val ++ '(' :: (inner.text ++ (closing.val ++ ')' :: rest))) =
      (awaiting (pending :: outer) {}).after (inner.text ++ (closing.val ++ ')' :: rest)) :=
    after_blanks_cons blanks.property rfl (by decide) (step_leftParenthesis hlt)
  have hclose : (complete (pending :: outer) lead term).after (closing.val ++ ')' :: rest) =
      (afterOperand outer pending (lead.append term)).after rest :=
    after_blanks_cons closing.property rfl (by decide) rfl
  rw [text, List.append_assoc, List.cons_append, List.append_assoc, List.append_assoc,
    List.singleton_append, hopen, hstate, hclose, htree]
  rfl

/-! ## All derivations -/

theorem isRead (d : Derivation s) (hd : d.Fits outer.length) (hrest : Numeral.Stops rest) :
    d.IsRead outer rest := by
  induction d generalizing outer rest with
  | expression minus first more ihfirst ihmore =>
    obtain ⟨hfirst, hmore⟩ := fits_expression.1 hd
    exact (ihfirst hfirst (more.stops_terms hrest)).expression minus (ihmore hmore hrest)
  | noTerm => exact fun lead term => ⟨lead, term, rfl, rfl⟩
  | andTerm blanks op hop first more ihfirst ihmore =>
    obtain ⟨hfirst, hmore⟩ := fits_andTerm.1 hd
    exact (ihfirst hfirst (more.stops_terms hrest)).andTerm blanks hop (ihmore hmore hrest)
  | term first more ihfirst ihmore =>
    obtain ⟨hfirst, hmore⟩ := fits_term.1 hd
    exact (ihfirst hfirst (more.stops_factors hrest)).term (ihmore hmore hrest)
  | noFactor => exact fun lead term => rfl
  | andFactor blanks op hop first more ihfirst ihmore =>
    obtain ⟨hfirst, hmore⟩ := fits_andFactor.1 hd
    exact (ihfirst hfirst (more.stops_factors hrest)).andFactor blanks hop (ihmore hmore hrest)
  | number blanks literal => exact isRead_number blanks literal (fits_number.1 hd).2 hrest
  | var blanks c hc => exact isRead_var blanks hc
  | group blanks inner closing ih =>
    have hinner (pending : Pending) : inner.Fits (pending :: outer).length := fits_group.1 hd
    have hlt : outer.length < maxDepth :=
      Nat.lt_of_succ_le (Nat.le_of_add_right_le (hinner {}).1)
    exact .group blanks closing hlt fun pending => ih (hinner pending) (stops_closing closing)

end Derivation

/-! ## Sentences -/

theorem Sentence.stops_trailing (s : Sentence) : Numeral.Stops s.trailing.val := by
  have := stops_blanks_append s.trailing Numeral.stops_nil
  rwa [List.append_nil] at this

/-- A sentence that fits is read to a state in which what it stands for has been taken
    in. -/
theorem Sentence.exists_after {s : Sentence} (hs : s.expression.Fits 0) :
    ∃ lead term, lead.append term = s.tree ∧
      initial.after s.text = .ok (complete [] lead term) := by
  have hfits : s.expression.Fits ([] : List Pending).length := hs
  obtain ⟨lead, term, htree, hstate⟩ := s.expression.isRead hfits s.stops_trailing
  have htrailing : tokens s.trailing.val = [] := by
    have : tokens (s.trailing.val ++ []) = tokens [] := tokens_blanks_append s.trailing.property
    rwa [List.append_nil, tokens_nil] at this
  exact ⟨lead, term, htree, hstate.trans (after_of_blank htrailing)⟩

/-- A readable sentence is read as what it stands for. -/
theorem Sentence.Readable.exists_after {s : Sentence} (hs : s.Readable) :
    ∃ last, initial.after s.text = .ok last ∧ last.finish = .ok s.tree := by
  have hfits : s.expression.Fits 0 := ⟨by rw [Nat.zero_add]; exact hs.nesting_le, hs.finite⟩
  obtain ⟨lead, term, htree, hstate⟩ := Sentence.exists_after hfits
  refine ⟨complete [] lead term, hstate, ?_⟩
  rw [finish, htree]
  exact if_neg (Nat.not_lt.2 hs.depth_le)

end Derivatives.Grammar
