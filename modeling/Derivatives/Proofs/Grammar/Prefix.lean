import Derivatives.Proofs.Expr.Refusal
import Derivatives.Proofs.Grammar.Limits

/-!
# A text is refused as soon as it can be

What has been read of a text that is refused is how a sentence starts: any state of the
reading can be completed, with an operand if one has to come, and with as many closing
parentheses as there are groups around (`Reading.Spelling.exists_sentence`). And if it is
refused for what comes next, no sentence goes on with that
(`Progress.not_isPrefix_text`): reading the text of a sentence gets to the same state,
and would be refused for the same reason, whereas a sentence is refused for the limits
only (`Sentence.after_text`).

The one exception is the letter of an exponent without a digit: what stands behind the
letter might have made it part of the number in front of it
(`Cursor.readExpr_correct_prefix`).
-/

namespace Derivatives

open Number Grammar

/-- The errors of texts that are no sentences. -/
def Error.isUngrammatical : Error → Bool
  | unexpectedEndOfLine | extraRightParenthesis | misplacedOperator _ | unexpectedCharacter _
  | missingRightParenthesis | extraData => true
  | _ => false

/-! ## What has been read can be completed -/

namespace Reading

variable {state : Reading} {u : List Char}

/-- Where an operand has come, the groups around can be closed. -/
theorem Spelling.exists_fits_of_complete {outer : List Pending} {lead : Lead} {term : Expr}
    (h : (Reading.complete outer lead term).Spelling u) (blanks : Blanks) :
    ∃ s : Sentence, s.expression.Fits 0 ∧ u ++ blanks.val <+: s.text := by
  induction outer generalizing lead term u blanks with
  | nil =>
    cases h with
    | complete ho hl hd =>
      cases ho
      obtain ⟨e, hfits, htext, -⟩ := hl.exists_expression hd
      refine ⟨⟨e, blanks⟩, hfits, ?_⟩
      rw [Sentence.text, htext]
      exact List.prefix_rfl
  | cons pending outer ih =>
    obtain ⟨s, hfits, hs⟩ := ih (h.step blanks .rightParenthesis rfl) noBlanks
    refine ⟨s, hfits, List.IsPrefix.trans ?_ hs⟩
    rw [← List.append_assoc, List.append_assoc]
    exact List.prefix_append _ _

/-- Where an operand has to come, the variable can come. -/
theorem Spelling.exists_fits_of_awaiting {outer : List Pending} {pending : Pending}
    (h : (Reading.awaiting outer pending).Spelling u) (blanks : Blanks) :
    ∃ s : Sentence, s.expression.Fits 0 ∧ u ++ blanks.val ++ ['x'] <+: s.text := by
  obtain ⟨s, hfits, hs⟩ :=
    (h.step blanks (.var (.inl rfl)) rfl).exists_fits_of_complete noBlanks
  refine ⟨s, hfits, List.IsPrefix.trans ?_ hs⟩
  rw [← List.append_assoc]
  exact List.prefix_append _ _

/-- A state that a text leads to can be completed. -/
theorem Spelling.exists_sentence (h : state.Spelling u) (blanks : Blanks) :
    ∃ s : Sentence, u ++ blanks.val <+: s.text := by
  cases state with
  | awaiting outer pending =>
    obtain ⟨s, -, hs⟩ := h.exists_fits_of_awaiting blanks
    exact ⟨s, (List.prefix_append _ _).trans hs⟩
  | complete outer lead term =>
    obtain ⟨s, -, hs⟩ := h.exists_fits_of_complete blanks
    exact ⟨s, hs⟩

/-! ## What comes next cannot -/

variable {c : Char} {v v' : List Char} {err : Error} {ls : List Lexeme} {rest rest' : List Char}

/-- What is refused for its first character is refused whatever comes behind that. -/
theorem step_first_congr (h : state.step (.first c v) = .error err) (herr : err.isUngrammatical) :
    state.step (.first c v') = .error err := by
  rcases hd : c.isDigit with _ | _
  · rwa [Token.first_of_not_isDigit hd] at h ⊢
  · cases state with
    | awaiting outer pending =>
      -- A number is only refused for a limit.
      rcases error_of_step_awaiting h with ⟨n, -, -, rfl⟩ | ⟨rfl, -⟩ | ⟨-, hc⟩
      · cases herr
      · cases herr
      · exact absurd (.inl hd) hc
    | complete outer lead term =>
      rw [Token.first_of_isDigit hd] at h ⊢
      cases outer <;> exact h

theorem EndsAt.congr (h : EndsAt ls rest) (hhead : rest.head? = rest'.head?) : EndsAt ls rest' := by
  intro l hl n hn
  obtain ⟨hends, hdangles⟩ := h l hl n hn
  exact ⟨fun c hc => hends c (hhead.trans hc),
    fun ⟨hnone, c, hc, hmark⟩ => hdangles ⟨hnone, c, hhead.trans hc, hmark⟩⟩

end Reading

/-- A sentence is refused for the limits only. -/
theorem Grammar.Sentence.not_isUngrammatical {s : Sentence} {err : Error}
    (h : Reading.initial.after s.text = .error err) : err.isUngrammatical = false := by
  rcases s.after_text with ⟨lead, term, -, hok⟩ | ⟨err', hexceeds, herr⟩
  · rw [hok] at h
    cases h
  · obtain rfl := Except.error.inj (herr.symm.trans h)
    cases hexceeds <;> rfl

namespace Progress

variable {cs : List Char} (p : Progress cs) {c : Char} {v : List Char} {err : Error}

/-- No sentence goes on with what is refused. -/
theorem not_isPrefix_text (hrest : p.rest = c :: v)
    (hends : Reading.EndsAt p.lexemes (p.blanks.val ++ c :: v))
    (hstep : p.state.step (.first c v) = .error err) (herr : err.isUngrammatical)
    (s : Sentence) : ¬ cs.take (p.position + 1) <+: s.text := by
  rintro ⟨more, hmore⟩
  have hc : isBlank c = false := p.isBlank_head c (by rw [hrest]; rfl)
  have htext : s.text = p.read ++ (p.blanks.val ++ c :: more) := by
    rw [← hmore, List.take_add_one, p.take_position, p.getElem?_position, hrest]
    simp
  -- The sentence is read up to the same place, and refused there.
  have hhead : (p.blanks.val ++ c :: v).head? = (p.blanks.val ++ c :: more).head? := by
    cases p.blanks.val <;> rfl
  have hafter : Reading.initial.after s.text = .error err := by
    obtain ⟨w, rest, -, -, -, hlexemes⟩ := exists_lexemes_cons more hc
    have htokens := (tokens_blanks_append p.blanks.property).trans
      (tokens_of_lexemes_eq_cons (hlexemes 0))
    rw [htext, p.reached.after (hends.congr hhead)]
    exact Reading.after_of_error htokens (Reading.step_first_congr hstep herr)
  rw [s.not_isUngrammatical hafter] at herr
  cases herr

/-- Where no number goes on, none could but for an exponent. -/
theorem exists_dangles (h : ¬ Reading.EndsAt p.lexemes (p.blanks.val ++ p.rest)) :
    ∃ l ∈ Derivatives.lexemes 0 cs, ∃ n, l.token = .numeral n ∧ l.stop = p.position ∧
      n.Dangles (cs.drop p.position) := by
  unfold Reading.EndsAt at h
  push Not at h
  obtain ⟨l, hl, n, hn, hdangles⟩ := h
  have hdangles := hdangles (p.ends l hl n hn)
  have hblanks : p.blanks.val = [] := by
    -- A letter is no blank.
    obtain ⟨-, d, hd, hmark⟩ := hdangles
    cases hcons : p.blanks.val with
    | nil => rfl
    | cons b bs =>
      rw [hcons] at hd
      obtain rfl := Option.some.inj hd
      have hblank : isBlank b := p.blanks.property b (by rw [hcons]; exact List.mem_cons_self)
      rcases eq_of_isBlank hblank with rfl | rfl <;> exact absurd hmark (by decide)
  rw [hblanks, List.nil_append] at hdangles
  refine ⟨l, ?_, n, hn, ?_, ?_⟩
  · rw [p.lexemes_eq]
    exact List.mem_append_left _ (List.mem_of_getLast? hl)
  · rw [p.reached.stop_eq hl, position, hblanks]
    rfl
  · rwa [p.drop_position]

variable {p} {refusal : Refusal}

theorem Refuses.position_eq (h : p.Refuses refusal) (herr : refusal.error.isUngrammatical) :
    refusal.position = p.position := by
  rcases h.classify with ⟨l, -, n, -, -, rfl⟩ | hdepth | ⟨hposition, -⟩
  · cases herr
  · rw [hdepth] at herr
    cases herr
  · exact hposition

theorem Refuses.not_isPrefix_text (h : p.Refuses refusal) (herr : refusal.error.isUngrammatical)
    (hlt : p.position < cs.length) (hends : Reading.EndsAt p.lexemes (p.blanks.val ++ p.rest))
    (s : Sentence) : ¬ cs.take (p.position + 1) <+: s.text := by
  cases h with
  | atEnd hrest =>
    have hposition := p.position_add_length
    rw [hrest, List.length_nil] at hposition
    omega
  | atLexeme hrest _ _ _ hstep =>
    rw [hrest] at hends
    exact p.not_isPrefix_text hrest hends hstep herr s

end Progress

theorem Grammar.Sentence.text_ne_lineCharacters {line : String} {err : Error}
    (h : Expr.parse line = .error err) (herr : err.isUngrammatical) (s : Sentence) :
    s.text ≠ lineCharacters line := by
  intro htext
  rw [Expr.parse_eq, ← htext] at h
  rcases s.after_text with ⟨lead, term, -, hok⟩ | ⟨err', -, herr'⟩
  · rw [hok] at h
    change (Reading.complete [] lead term).finish = .error err at h
    rcases Reading.error_of_finish_complete h with rfl | ⟨-, hlt⟩
    · cases herr
    · exact absurd hlt (Nat.lt_irrefl 0)
  · have hlimit := s.not_isUngrammatical herr'
    rw [herr'] at h
    obtain rfl := Except.error.inj h
    rw [hlimit] at herr
    cases herr

/-- What has been read of a line that is refused for its grammar is how a sentence starts,
    and no sentence goes on with the next character, unless that is the letter of an
    exponent without a digit; and if there is none, the line is no sentence. -/
theorem Cursor.readExpr_correct_prefix {line : String} {err : Error} {c : Cursor}
    (h : (Cursor.ofLine line).readExpr = (.error err, c)) (herr : err.isUngrammatical) :
    let cs := lineCharacters line
    (∃ s : Sentence, cs.take c.position <+: s.text) ∧
    (c.position < cs.length →
      (∃ l ∈ lexemes 0 cs, ∃ n, l.token = .numeral n ∧ l.stop = c.position ∧
        n.Dangles (cs.drop c.position)) ∨
      ∀ s : Sentence, ¬ cs.take (c.position + 1) <+: s.text) ∧
    (c.position = cs.length → ∀ s : Sentence, s.text ≠ cs) := by
  intro cs
  obtain ⟨p, hp⟩ := Cursor.exists_refuses h
  have hposition : c.position = p.position := hp.position_eq herr
  have hparse : Expr.parse line = .error err := congrArg Prod.fst h
  rw [hposition]
  refine ⟨?_, fun hlt => ?_, fun _ => Sentence.text_ne_lineCharacters hparse herr⟩
  · rw [p.take_position]
    exact p.reached.spelling.exists_sentence p.blanks
  · by_cases hends : Reading.EndsAt p.lexemes (p.blanks.val ++ p.rest)
    · exact .inr (hp.not_isPrefix_text herr hlt hends)
    · exact .inl (p.exists_dangles hends)

/-- No sentence starts with `2 * (x + )`, but one starts with what is in front of the
    closing parenthesis. -/
theorem Cursor.readExpr_correct_prefix_extraRightParenthesis :
    (∃ s : Sentence, "2 * (x + ".toList <+: s.text) ∧
      ∀ s : Sentence, ¬ "2 * (x + )".toList <+: s.text := by
  have hread : Expr.read (lineCharacters "2 * (x + )1\n") =
      .error ⟨.extraRightParenthesis, 9⟩ := by decide +kernel
  have h := Cursor.readExpr_of_error (c := Cursor.ofLine "2 * (x + )1\n") hread
  obtain ⟨hstart, hnext, -⟩ := Cursor.readExpr_correct_prefix h rfl
  refine ⟨hstart, ?_⟩
  rcases hnext (by decide) with ⟨l, -, n, -, -, -, d, hd, hmark⟩ | hnot
  · obtain rfl := Option.some.inj hd
    cases hmark
  · exact hnot

end Derivatives
