import Derivatives.Proofs.Expr.Reading
import Derivatives.Proofs.Grammar

/-!
# What is read is a sentence

Each state of the reading has been reached through a text of a certain form
(`Reading.Spelling`): for each of the groups around, what stands to the left of the
operand that its parenthesis opens, and for the innermost one, what has come of it,
all of it derived from the symbols of the grammar. Each step keeps to that form
(`Reading.Spelling.step`), and so does reading a text (`Reading.Spelling.after`). A
text that can end is of the form of a sentence (`Sentence.exists_of_after`).
-/

namespace Derivatives

open Number Grammar

/-! ## Chains go on -/

namespace Grammar.Derivation

variable {level : Nat} {op : Operator}

theorem Fits.level_le {s : Symbol} {d : Derivation s} (hd : d.Fits level) : level ≤ maxDepth :=
  Nat.le_of_add_right_le hd.1

theorem exists_terms_concat (blanks : Blanks) (hop : op.isAdditive = true)
    {next : Derivation .term} (hnext : next.Fits level) :
    (d : Derivation .terms) → d.Fits level → ∃ d' : Derivation .terms, d'.Fits level ∧
      d'.text = d.text ++ (blanks.val ++ op.symbol :: next.text) ∧
      ∀ left, d'.tree left = .binary op (d.tree left) next.tree
  | noTerm, hd => by
    refine ⟨andTerm blanks op hop next noTerm, fits_andTerm.2 ⟨hnext, hd⟩, ?_, fun _ => rfl⟩
    simp only [text, List.append_nil, List.nil_append]
  | andTerm blanks' op' hop' next' more, hd => by
    obtain ⟨hnext', hmore⟩ := fits_andTerm.1 hd
    obtain ⟨more', hfits, htext, htree⟩ := exists_terms_concat blanks hop hnext more hmore
    refine ⟨andTerm blanks' op' hop' next' more', fits_andTerm.2 ⟨hnext', hfits⟩, ?_,
      fun left => htree _⟩
    simp only [text, htext, List.append_assoc, List.cons_append]

/-- A sum goes on with one more term. -/
theorem exists_expression_concat {d : Derivation .expression} (hd : d.Fits level)
    (blanks : Blanks) (hop : op.isAdditive = true) {next : Derivation .term}
    (hnext : next.Fits level) :
    ∃ d' : Derivation .expression, d'.Fits level ∧
      d'.text = d.text ++ (blanks.val ++ op.symbol :: next.text) ∧
      d'.tree = .binary op d.tree next.tree := by
  cases d with
  | expression minus first more =>
    obtain ⟨hfirst, hmore⟩ := fits_expression.1 hd
    obtain ⟨more', hfits, htext, htree⟩ := exists_terms_concat blanks hop hnext more hmore
    refine ⟨expression minus first more', fits_expression.2 ⟨hfirst, hfits⟩, ?_, ?_⟩
    · simp only [text, htext, List.append_assoc]
    · cases minus <;> exact htree _

theorem exists_factors_concat (blanks : Blanks) (hop : op.isAdditive = false)
    {next : Derivation .factor} (hnext : next.Fits level) :
    (d : Derivation .factors) → d.Fits level → ∃ d' : Derivation .factors, d'.Fits level ∧
      d'.text = d.text ++ (blanks.val ++ op.symbol :: next.text) ∧
      ∀ left, d'.tree left = .binary op (d.tree left) next.tree
  | noFactor, hd => by
    refine ⟨andFactor blanks op hop next noFactor, fits_andFactor.2 ⟨hnext, hd⟩, ?_, fun _ => rfl⟩
    simp only [text, List.append_nil, List.nil_append]
  | andFactor blanks' op' hop' next' more, hd => by
    obtain ⟨hnext', hmore⟩ := fits_andFactor.1 hd
    obtain ⟨more', hfits, htext, htree⟩ := exists_factors_concat blanks hop hnext more hmore
    refine ⟨andFactor blanks' op' hop' next' more', fits_andFactor.2 ⟨hnext', hfits⟩, ?_,
      fun left => htree _⟩
    simp only [text, htext, List.append_assoc, List.cons_append]

/-- A product goes on with one more factor. -/
theorem exists_term_concat {d : Derivation .term} (hd : d.Fits level) (blanks : Blanks)
    (hop : op.isAdditive = false) {next : Derivation .factor} (hnext : next.Fits level) :
    ∃ d' : Derivation .term, d'.Fits level ∧
      d'.text = d.text ++ (blanks.val ++ op.symbol :: next.text) ∧
      d'.tree = .binary op d.tree next.tree := by
  cases d with
  | term first more =>
    obtain ⟨hfirst, hmore⟩ := fits_term.1 hd
    obtain ⟨more', hfits, htext, htree⟩ := exists_factors_concat blanks hop hnext more hmore
    refine ⟨term first more', fits_term.2 ⟨hfirst, hfits⟩, ?_, htree _⟩
    simp only [text, htext, List.append_assoc]

end Grammar.Derivation

/-! ## The text behind a state -/

/-- The texts that lead up to a term inside of `level` groups. -/
inductive Lead.Spelling (level : Nat) : Lead → List Char → Prop
  | start : Spelling level .start []
  | minus (blanks : Blanks) : Spelling level .minus (blanks.val ++ ['-'])
  | sum {op : Operator} {d : Derivation .expression} : d.Fits level → (blanks : Blanks) →
      op.isAdditive = true → Spelling level (.sum d.tree op) (d.text ++ (blanks.val ++ [op.symbol]))

/-- A term makes an expression of what stands to its left. -/
theorem Lead.Spelling.exists_expression {level : Nat} {lead : Lead} {w : List Char}
    (h : lead.Spelling level w) {d : Derivation .term} (hd : d.Fits level) :
    ∃ e : Derivation .expression, e.Fits level ∧ e.text = w ++ d.text ∧
      e.tree = lead.append d.tree := by
  have hend : (Derivation.noTerm).Fits level := Derivation.fits_noTerm.2 hd.level_le
  cases h with
  | start =>
    refine ⟨.expression none d .noTerm, Derivation.fits_expression.2 ⟨hd, hend⟩, ?_, rfl⟩
    exact congrArg _ (List.append_nil _)
  | minus blanks =>
    refine ⟨.expression (some blanks) d .noTerm, Derivation.fits_expression.2 ⟨hd, hend⟩, ?_, rfl⟩
    exact congrArg _ (List.append_nil _)
  | sum he blanks hop =>
    obtain ⟨e, hfits, htext, htree⟩ := Derivation.exists_expression_concat he blanks hop hd
    refine ⟨e, hfits, ?_, htree⟩
    rw [htext, List.append_assoc, List.append_assoc, List.singleton_append]

/-- The texts that lead up to an operand inside of `level` groups. -/
inductive Pending.Spelling (level : Nat) : Pending → List Char → Prop
  | first {lead : Lead} {w : List Char} : lead.Spelling level w → Spelling level { lead } w
  | next {lead : Lead} {w : List Char} {op : Operator} {d : Derivation .term} :
      lead.Spelling level w → d.Fits level → (blanks : Blanks) → op.isAdditive = false →
      Spelling level { lead, product := some (d.tree, op) }
        (w ++ (d.text ++ (blanks.val ++ [op.symbol])))

namespace Reading

/-- The texts that lead into groups. -/
inductive OuterSpelling : List Pending → List Char → Prop
  | nil : OuterSpelling [] []
  | cons {pending : Pending} {outer : List Pending} {v w : List Char} : OuterSpelling outer v →
      pending.Spelling outer.length w → outer.length < maxDepth → (blanks : Blanks) →
      OuterSpelling (pending :: outer) (v ++ (w ++ (blanks.val ++ ['('])))

/-- The texts that lead to a state. -/
inductive Spelling : Reading → List Char → Prop
  | awaiting {outer : List Pending} {pending : Pending} {v w : List Char} :
      OuterSpelling outer v → pending.Spelling outer.length w →
      Spelling (awaiting outer pending) (v ++ w)
  | complete {outer : List Pending} {lead : Lead} {d : Derivation .term} {v w : List Char} :
      OuterSpelling outer v → lead.Spelling outer.length w → d.Fits outer.length →
      Spelling (complete outer lead d.tree) (v ++ (w ++ d.text))

variable {outer : List Pending} {pending : Pending} {v w : List Char}

theorem OuterSpelling.length_le (h : OuterSpelling outer v) : outer.length ≤ maxDepth := by
  cases h with
  | nil => exact Nat.zero_le _
  | cons _ _ hlt _ => exact hlt

/-- An operand comes behind what leads up to it. -/
theorem Spelling.afterOperand (ho : OuterSpelling outer v) (hp : pending.Spelling outer.length w)
    {d : Derivation .factor} (hd : d.Fits outer.length) :
    Spelling (afterOperand outer pending d.tree) (v ++ (w ++ d.text)) := by
  cases hp with
  | first hl =>
    have hterm : (Derivation.term d .noFactor).Fits outer.length :=
      Derivation.fits_term.2 ⟨hd, Derivation.fits_noFactor.2 hd.level_le⟩
    have htext : (Derivation.term d .noFactor).text = d.text := List.append_nil _
    rw [← htext]
    exact .complete ho hl hterm
  | next hl hterm blanks hop =>
    obtain ⟨term, hfits, htext, htree⟩ := Derivation.exists_term_concat hterm blanks hop hd
    have := Spelling.complete ho hl hfits
    rw [htext, htree] at this
    simp only [List.append_assoc, List.singleton_append]
    exact this

/-! ## Each step keeps to it -/

/-- In front of an operand, a token makes one, or takes the reading on to where one comes. -/
theorem Spelling.step_awaiting {next : Reading} {u : List Char} {t : Token}
    (ho : OuterSpelling outer v) (hp : pending.Spelling outer.length w) (blanks : Blanks)
    (ht : t.Spelling u) (hs : (Reading.awaiting outer pending).step t = .ok next) :
    next.Spelling (v ++ (w ++ (blanks.val ++ u))) := by
  cases Steps.of_step hs with
  | @numeral outer pending n value hvalue =>
    cases ht with
    | numeral hn =>
      -- A numeral has only come if it has a value, and then it is a finite one.
      obtain ⟨hfinite, rfl⟩ := (Numeral.value_eq_ok_iff hn).1 hvalue
      have hfits : (Derivation.number blanks ⟨n, hn⟩).Fits outer.length :=
        Derivation.fits_number.2 ⟨ho.length_le, hfinite⟩
      exact .afterOperand ho hp hfits
  | var =>
    cases ht with
    | @var c hc =>
      have hfits : (Derivation.var blanks c hc).Fits outer.length :=
        Derivation.fits_var.2 ho.length_le
      exact .afterOperand ho hp hfits
  | minus =>
    cases ht
    cases hp with
    | first hl =>
      cases hl
      exact .awaiting ho (.first (.minus blanks))
  | leftParenthesis hne =>
    cases ht
    have houter := OuterSpelling.cons ho hp (Nat.lt_of_le_of_ne ho.length_le hne) blanks
    have := Spelling.awaiting houter (.first .start)
    rwa [List.append_nil] at this

/-- Behind an operand, a token joins what comes next to the expression so far, or makes it the
    operand that the group around it was opened for. -/
theorem Spelling.step_complete {next : Reading} {u : List Char} {t : Token} {lead : Lead}
    {d : Derivation .term} (ho : OuterSpelling outer v) (hl : lead.Spelling outer.length w)
    (hd : d.Fits outer.length) (blanks : Blanks) (ht : t.Spelling u)
    (hs : (Reading.complete outer lead d.tree).step t = .ok next) :
    next.Spelling (v ++ (w ++ d.text) ++ (blanks.val ++ u)) := by
  -- But for a factor to come, the term makes an expression, whatever comes next.
  obtain ⟨e, hfits, htext, htree⟩ := hl.exists_expression hd
  rw [List.append_assoc]
  cases Steps.of_step hs with
  | additive hop =>
    cases ht
    rw [← htext, ← htree]
    exact .awaiting ho (.first (.sum hfits blanks hop))
  | multiplicative hop =>
    cases ht
    have := Spelling.awaiting ho (.next hl hd blanks hop)
    simpa only [List.append_assoc] using this
  | @rightParenthesis outer pending lead =>
    cases ht
    cases ho with
    | @cons _ _ v' w' ho hp hlt opening =>
      have hgroup : (Derivation.group opening e blanks).Fits outer.length :=
        Derivation.fits_group.2 hfits
      have := Spelling.afterOperand ho hp hgroup
      rw [Derivation.text, htext, Derivation.tree, htree] at this
      simpa only [List.append_assoc, List.cons_append, List.nil_append] using this

/-- A token behind blanks takes a state to one that the longer text leads to. -/
theorem Spelling.step {state next : Reading} {p u : List Char} {t : Token}
    (h : state.Spelling p) (blanks : Blanks) (ht : t.Spelling u) (hs : state.step t = .ok next) :
    next.Spelling (p ++ (blanks.val ++ u)) := by
  cases h with
  | awaiting ho hp =>
    rw [List.append_assoc]
    exact .step_awaiting ho hp blanks ht hs
  | complete ho hl hd => exact .step_complete ho hl hd blanks ht hs

/-- Reading a text takes a state to one that the longer text leads to, but for the
    blanks at its end. -/
theorem Spelling.after {state last : Reading} {p cs : List Char} (h : state.Spelling p)
    (hs : state.after cs = .ok last) :
    ∃ (u : List Char) (trailing : Blanks), cs = u ++ trailing.val ∧ last.Spelling (p ++ u) := by
  -- By induction on the tokens, as blanks are passed with the token behind them.
  induction htokens : tokens cs generalizing state p cs with
  | nil =>
    rw [after_of_blank htokens] at hs
    obtain rfl := Except.ok.inj hs
    refine ⟨[], ⟨cs, isBlank_of_tokens_eq_nil htokens⟩, rfl, ?_⟩
    rwa [List.append_nil]
  | cons t ts ih =>
    obtain ⟨bs, w, rest, hbs, hw, rfl, hrest⟩ := exists_of_tokens_eq_cons htokens
    rw [← hrest] at htokens
    cases hstep : state.step t with
    | error err =>
      rw [after_of_error htokens hstep] at hs
      cases hs
    | ok next =>
      rw [after_of_step htokens hstep] at hs
      obtain ⟨u, trailing, rfl, hlast⟩ := ih (h.step ⟨bs, hbs⟩ hw hstep) hs hrest
      refine ⟨bs ++ (w ++ u), trailing, ?_, ?_⟩
      · rw [List.append_assoc, List.append_assoc]
      · simpa only [List.append_assoc] using hlast

end Reading

/-- A text that can end is that of a sentence. -/
theorem Grammar.Sentence.exists_of_after {cs : List Char} {last : Reading} {e : Expr}
    (hs : Reading.initial.after cs = .ok last) (hfinish : last.finish = .ok e) :
    ∃ s : Sentence, s.text = cs ∧ s.Readable ∧ s.tree = e := by
  have hinitial : Reading.initial.Spelling ([] ++ []) := .awaiting .nil (.first .start)
  obtain ⟨u, trailing, rfl, hlast⟩ := hinitial.after hs
  cases hlast with
  | awaiting => cases hfinish
  | @complete outer lead d v w ho hl hd =>
    cases ho with
    | cons => cases hfinish
    | nil =>
      obtain ⟨d', hfits, htext, htree⟩ := hl.exists_expression hd
      rw [Reading.finish, ← htree] at hfinish
      split at hfinish
      · cases hfinish
      · next hdepth =>
        refine ⟨⟨d', trailing⟩, congrArg (· ++ trailing.val) htext, ⟨?_, hfits.2, ?_⟩,
          Except.ok.inj hfinish⟩
        · exact (Nat.zero_add _).symm.trans_le hfits.1
        · exact Nat.not_lt.1 hdepth

end Derivatives
