import Derivatives.Proofs.Grammar.Completeness
import Derivatives.Proofs.Grammar.Unambiguous

/-!
# What is beyond the limits is refused

A derivation that does not fit, since its parentheses nest too deep or since one of
its numbers is not finite, is not read: the reading of its text is refused with the
error of a limit that it is beyond (`Derivation.Exceeds`, `Derivation.isRefused`).
So the text of any sentence is either read as a whole, or refused for being beyond a
limit and for nothing else (`Sentence.after_text`).
-/

namespace Derivatives.Grammar

open Number Reading

variable {s s₁ s₂ : Symbol} {outer : List Pending} {rest : List Char} {level : Nat} {err : Error}

/-! ## Limits -/

/-- The errors of the limits that a derivation inside of `level` groups is beyond. -/
inductive Derivation.Exceeds (level : Nat) (d : Derivation s) : Error → Prop
  /-- Too many parentheses are open at once. -/
  | nesting : maxDepth < level + d.nesting → Exceeds level d (.nestedTooDeeply maxDepth)
  /-- A number is not finite. -/
  | literal {n : Literal} : n ∈ d.literals → ¬ n.val.IsFinite →
      Exceeds level d (.numberOutOfRange (String.ofList n.val.text))

/-- What either of its parts is beyond, a derivation is beyond. -/
theorem Derivation.exceeds_of_eq {d : Derivation s} {d₁ : Derivation s₁} {d₂ : Derivation s₂}
    (hn : d.nesting = max d₁.nesting d₂.nesting) (hl : d.literals = d₁.literals ++ d₂.literals)
    (h : d₁.Exceeds level err ∨ d₂.Exceeds level err) : d.Exceeds level err := by
  rcases h with h | h
  · cases h with
    | nesting h => exact .nesting (by omega)
    | literal hmem h => exact .literal (by rw [hl]; exact List.mem_append_left _ hmem) h
  · cases h with
    | nesting h => exact .nesting (by omega)
    | literal hmem h => exact .literal (by rw [hl]; exact List.mem_append_right _ hmem) h

theorem Derivation.exceeds_group {blanks closing : Blanks} {inner : Derivation .expression}
    (h : inner.Exceeds (level + 1) err) : (group blanks inner closing).Exceeds level err := by
  cases h with
  | nesting h => exact .nesting (by rw [Derivation.nesting]; omega)
  | literal hmem h => exact .literal hmem h

/-! ## Refusal -/

/-- The states in which a derivation of a symbol can come next, inside of the groups
    `outer`. -/
def Symbol.Starts (outer : List Pending) : Symbol → Reading → Prop
  | .expression, state => state = awaiting outer {}
  | .terms, state | .factors, state => ∃ lead term, state = complete outer lead term
  | .term, state => ∃ lead, state = awaiting outer { lead }
  | .factor, state => ∃ pending, state = awaiting outer pending

/-- Inside of the groups `outer`, the reading of the text of a derivation is refused for
    a limit that the derivation is beyond. -/
def Derivation.IsRefused (outer : List Pending) (rest : List Char) (d : Derivation s) : Prop :=
  ∀ state, s.Starts outer state →
    ∃ err, d.Exceeds outer.length err ∧ state.after (d.text ++ rest) = .error err

/-- One derivation after another is refused if either is, provided that reading gets
    from the first to the second. -/
theorem exists_error_append {d₁ : Derivation s₁} {d₂ : Derivation s₂}
    (hd : ¬ (d₁.Fits outer.length ∧ d₂.Fits outer.length))
    (h₁ : ¬ d₁.Fits outer.length → d₁.IsRefused outer (d₂.text ++ rest))
    (h₂ : ¬ d₂.Fits outer.length → d₂.IsRefused outer rest)
    (hread : d₁.Fits outer.length → ∀ state, s₁.Starts outer state → ∃ next,
      s₂.Starts outer next ∧
        state.after (d₁.text ++ (d₂.text ++ rest)) = next.after (d₂.text ++ rest))
    {state : Reading} (hstate : s₁.Starts outer state) :
    ∃ err, (d₁.Exceeds outer.length err ∨ d₂.Exceeds outer.length err) ∧
      state.after (d₁.text ++ (d₂.text ++ rest)) = .error err := by
  by_cases hfits : d₁.Fits outer.length
  · obtain ⟨next, hnext, hafter⟩ := hread hfits state hstate
    obtain ⟨err, hexceeds, herr⟩ := h₂ (fun h => hd ⟨hfits, h⟩) next hnext
    exact ⟨err, .inr hexceeds, hafter.trans herr⟩
  · obtain ⟨err, hexceeds, herr⟩ := h₁ hfits state hstate
    exact ⟨err, .inl hexceeds, herr⟩

/-- Behind a term, more terms can come next. -/
theorem Derivation.exists_starts_terms {d : Derivation .term} (hd : d.Fits outer.length)
    (hrest : Numeral.Stops rest) (state : Reading) (hstate : Symbol.term.Starts outer state) :
    ∃ next, Symbol.terms.Starts outer next ∧ state.after (d.text ++ rest) = next.after rest := by
  obtain ⟨lead, rfl⟩ := hstate
  exact ⟨_, ⟨lead, d.tree, rfl⟩, d.isRead hd hrest lead⟩

/-- Behind a factor, more factors can come next. -/
theorem Derivation.exists_starts_factors {d : Derivation .factor} (hd : d.Fits outer.length)
    (hrest : Numeral.Stops rest) (state : Reading) (hstate : Symbol.factor.Starts outer state) :
    ∃ next, Symbol.factors.Starts outer next ∧ state.after (d.text ++ rest) = next.after rest := by
  obtain ⟨pending, rfl⟩ := hstate
  exact ⟨_, ⟨pending.lead, pending.append d.tree, rfl⟩, d.isRead hd hrest pending⟩

namespace Derivation

/-! ### Sums -/

section Terms

variable {first : Derivation .term} {more : Derivation .terms}
  (hd : ¬ (first.Fits outer.length ∧ more.Fits outer.length))
  (hfirst : ¬ first.Fits outer.length → first.IsRefused outer (more.text ++ rest))
  (hmore : ¬ more.Fits outer.length → more.IsRefused outer rest) (hrest : Numeral.Stops rest)

include hd hfirst hmore hrest

theorem exists_error_terms (lead : Lead) :
    ∃ err, (first.Exceeds outer.length err ∨ more.Exceeds outer.length err) ∧
      (awaiting outer { lead }).after (first.text ++ (more.text ++ rest)) = .error err :=
  exists_error_append hd hfirst hmore
    (fun h => first.exists_starts_terms h (more.stops_terms hrest)) ⟨lead, rfl⟩

theorem isRefused_expression (minus : Option Blanks) :
    (expression minus first more).IsRefused outer rest := by
  have herror := exists_error_terms hd hfirst hmore hrest
  rintro state rfl
  rw [text, List.append_assoc, List.append_assoc]
  cases minus with
  | none =>
    obtain ⟨err, hexceeds, herr⟩ := herror .start
    exact ⟨err, exceeds_of_eq rfl rfl hexceeds, herr⟩
  | some blanks =>
    obtain ⟨err, hexceeds, herr⟩ := herror .minus
    refine ⟨err, exceeds_of_eq rfl rfl hexceeds, ?_⟩
    rw [Option.elim_some, List.append_assoc]
    exact (after_blanks_operator blanks.property step_minus).trans herr

theorem isRefused_andTerm (blanks : Blanks) {op : Operator} (hop : op.isAdditive = true) :
    (andTerm blanks op hop first more).IsRefused outer rest := by
  rintro state ⟨lead, term, rfl⟩
  obtain ⟨err, hexceeds, herr⟩ :=
    exists_error_terms hd hfirst hmore hrest (.sum (lead.append term) op)
  refine ⟨err, exceeds_of_eq rfl rfl hexceeds, ?_⟩
  rw [text, List.append_assoc, List.cons_append, List.append_assoc]
  exact (after_blanks_operator blanks.property (step_of_isAdditive hop)).trans herr

end Terms

/-! ### Products -/

section Factors

variable {first : Derivation .factor} {more : Derivation .factors}
  (hd : ¬ (first.Fits outer.length ∧ more.Fits outer.length))
  (hfirst : ¬ first.Fits outer.length → first.IsRefused outer (more.text ++ rest))
  (hmore : ¬ more.Fits outer.length → more.IsRefused outer rest) (hrest : Numeral.Stops rest)

include hd hfirst hmore hrest

theorem exists_error_factors (pending : Pending) :
    ∃ err, (first.Exceeds outer.length err ∨ more.Exceeds outer.length err) ∧
      (awaiting outer pending).after (first.text ++ (more.text ++ rest)) = .error err :=
  exists_error_append hd hfirst hmore
    (fun h => first.exists_starts_factors h (more.stops_factors hrest)) ⟨pending, rfl⟩

theorem isRefused_term : (term first more).IsRefused outer rest := by
  rintro state ⟨lead, rfl⟩
  obtain ⟨err, hexceeds, herr⟩ := exists_error_factors hd hfirst hmore hrest { lead }
  refine ⟨err, exceeds_of_eq rfl rfl hexceeds, ?_⟩
  rw [text, List.append_assoc]
  exact herr

theorem isRefused_andFactor (blanks : Blanks) {op : Operator} (hop : op.isAdditive = false) :
    (andFactor blanks op hop first more).IsRefused outer rest := by
  rintro state ⟨lead, term, rfl⟩
  obtain ⟨err, hexceeds, herr⟩ :=
    exists_error_factors hd hfirst hmore hrest { lead, product := some (term, op) }
  refine ⟨err, exceeds_of_eq rfl rfl hexceeds, ?_⟩
  rw [text, List.append_assoc, List.cons_append, List.append_assoc]
  exact (after_blanks_operator blanks.property (step_of_not_isAdditive hop)).trans herr

end Factors

/-! ### Factors -/

theorem isRefused_number (blanks : Blanks) {literal : Literal} (hfinite : ¬ literal.val.IsFinite)
    (hrest : Numeral.Stops rest) : (number blanks literal).IsRefused outer rest := by
  rintro state ⟨pending, rfl⟩
  exact ⟨_, .literal List.mem_cons_self hfinite, after_of_error (tokens_number hrest)
    (step_numeral_of_not_isFinite literal.property hfinite)⟩

theorem isRefused_group (blanks closing : Blanks) {inner : Derivation .expression}
    (hlevel : outer.length ≤ maxDepth)
    (hinner : outer.length < maxDepth → ∀ pending,
      inner.IsRefused (pending :: outer) (closing.val ++ ')' :: rest)) :
    (group blanks inner closing).IsRefused outer rest := by
  rintro state ⟨pending, rfl⟩
  rcases Nat.eq_or_lt_of_le hlevel with heq | hlt
  · -- One more parenthesis is one too many, whatever comes behind it.
    exact ⟨_, .nesting (by rw [nesting]; omega), after_of_error tokens_group (if_pos heq)⟩
  · obtain ⟨err, hexceeds, herr⟩ := hinner hlt pending _ rfl
    exact ⟨err, exceeds_group hexceeds,
      (after_of_step tokens_group (step_leftParenthesis hlt)).trans herr⟩

/-! ### All derivations -/

/-- A derivation that does not fit is refused. -/
theorem isRefused (d : Derivation s) (hlevel : outer.length ≤ maxDepth)
    (hd : ¬ d.Fits outer.length) (hrest : Numeral.Stops rest) : d.IsRefused outer rest := by
  induction d generalizing outer rest with
  | expression minus first more ihfirst ihmore =>
    have hfirst h := ihfirst hlevel h (more.stops_terms hrest)
    have hmore h := ihmore hlevel h hrest
    exact isRefused_expression (mt fits_expression.2 hd) hfirst hmore hrest minus
  | noTerm => exact absurd (fits_noTerm.2 hlevel) hd
  | andTerm blanks op hop first more ihfirst ihmore =>
    have hfirst h := ihfirst hlevel h (more.stops_terms hrest)
    have hmore h := ihmore hlevel h hrest
    exact isRefused_andTerm (mt fits_andTerm.2 hd) hfirst hmore hrest blanks hop
  | term first more ihfirst ihmore =>
    have hfirst h := ihfirst hlevel h (more.stops_factors hrest)
    have hmore h := ihmore hlevel h hrest
    exact isRefused_term (mt fits_term.2 hd) hfirst hmore hrest
  | noFactor => exact absurd (fits_noFactor.2 hlevel) hd
  | andFactor blanks op hop first more ihfirst ihmore =>
    have hfirst h := ihfirst hlevel h (more.stops_factors hrest)
    have hmore h := ihmore hlevel h hrest
    exact isRefused_andFactor (mt fits_andFactor.2 hd) hfirst hmore hrest blanks hop
  | number blanks literal =>
    exact isRefused_number blanks (fun h => hd (fits_number.2 ⟨hlevel, h⟩)) hrest
  | var blanks c hc => exact absurd (fits_var.2 hlevel) hd
  | group blanks inner closing ih =>
    exact isRefused_group blanks closing hlevel fun hlt _ =>
      ih hlt (mt fits_group.2 hd) (stops_closing closing)

end Derivation

/-! ## Sentences -/

/-- The text of a sentence is read as a whole, or refused for a limit that the sentence
    is beyond. -/
theorem Sentence.after_text (s : Sentence) :
    (∃ lead term, lead.append term = s.tree ∧
      initial.after s.text = .ok (complete [] lead term)) ∨
    ∃ err, s.expression.Exceeds 0 err ∧ initial.after s.text = .error err := by
  by_cases hfits : s.expression.Fits 0
  · exact .inl (Sentence.exists_after hfits)
  · have hlevel : ([] : List Pending).length ≤ maxDepth := Nat.zero_le maxDepth
    exact .inr (s.expression.isRefused hlevel hfits s.stops_trailing initial rfl)

/-- A sentence of finite numbers that is not readable is refused for nesting too deep. -/
theorem Sentence.after_text_bind_finish {s : Sentence}
    (hfinite : ∀ n ∈ s.expression.literals, n.val.IsFinite) (h : ¬ s.Readable) :
    initial.after s.text >>= finish = .error (.nestedTooDeeply maxDepth) := by
  by_cases hfits : s.expression.Fits 0
  · -- What is left to go wrong is the depth of the tree, found at the end.
    obtain ⟨lead, term, htree, hstate⟩ := Sentence.exists_after hfits
    have hnesting : s.expression.nesting ≤ maxDepth := (Nat.zero_add _).symm.trans_le hfits.1
    have hdepth : maxDepth < s.tree.depth :=
      Nat.not_le.1 fun hle => h ⟨hnesting, hfinite, hle⟩
    rw [hstate]
    rw [← htree] at hdepth
    exact if_pos hdepth
  · have hlevel : ([] : List Pending).length ≤ maxDepth := Nat.zero_le maxDepth
    obtain ⟨err, hexceeds, herr⟩ := s.expression.isRefused hlevel hfits s.stops_trailing initial rfl
    rw [text, herr]
    cases hexceeds with
    | nesting => rfl
    | literal hmem hnot => exact absurd (hfinite _ hmem) hnot

end Derivatives.Grammar
