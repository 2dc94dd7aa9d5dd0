import Derivatives.Proofs.Grammar.Soundness

/-!
# How far a text is read

The state of the reading is reached through the lexemes in front of it
(`Reading.Reached`). As behind a number none but an operator or a closing parenthesis
can come, which no number goes on with, these are the lexemes of the text read so far,
whatever text comes behind it, provided only that its last number ends there
(`Reached.lexemes_append`, `Reached.after`).

A text that is refused is read up to some place (`Progress`): what is in front of it
has been reached, and what comes behind it, or that nothing does, is refused
(`Progress.Refuses`, `Expr.exists_refuses`).
-/

namespace Derivatives

open Number Grammar

namespace Reading

/-- The texts through which a state is reached, with their lexemes. -/
inductive Reached : List Char → List Lexeme → Reading → Prop
  | initial : Reached [] [] initial
  | step {u w : List Char} {ls : List Lexeme} {state next : Reading} {t : Token} :
      Reached u ls state → (blanks : Blanks) → t.Spelling w → state.step t = .ok next →
      Reached (u ++ (blanks.val ++ w))
        (ls ++ [⟨t, u.length + blanks.val.length, u.length + blanks.val.length + w.length⟩]) next

/-- The last of some lexemes is no number that goes on with a text. -/
def EndsAt (ls : List Lexeme) (rest : List Char) : Prop :=
  ∀ l ∈ ls.getLast?, ∀ n, l.token = .numeral n → n.Ends rest ∧ ¬ n.Dangles rest

variable {u w rest : List Char} {ls : List Lexeme} {state next : Reading} {l : Lexeme} {t : Token}
  {n : Numeral}

/-! ## Steps -/

theorem ne_other_of_step (h : state.step t = .ok next) (c : Char) : t ≠ .other c := by
  rintro rfl
  cases Steps.of_step h

theorem exists_complete_of_step_numeral (h : state.step (.numeral n) = .ok next) :
    ∃ outer lead term, next = complete outer lead term := by
  cases Steps.of_step h
  exact ⟨_, _, _, rfl⟩

/-- Behind an operand, none but an operator or a closing parenthesis comes, which no
    number goes on with. -/
theorem stops_of_step_complete {outer : List Pending} {lead : Lead} {term : Expr}
    (h : (complete outer lead term).step t = .ok next) (ht : t.Spelling w) :
    Numeral.Stops (w ++ rest) := by
  cases Steps.of_step h with
  | additive | multiplicative =>
    cases ht
    exact stops_operator _
  | rightParenthesis =>
    cases ht
    exact Numeral.stops_cons (by decide)

/-! ## What has been reached -/

theorem Reached.spelling (h : Reached u ls state) : state.Spelling u := by
  induction h with
  | initial => exact Spelling.awaiting (w := []) .nil (.first .start)
  | step _ blanks ht hs ih => exact ih.step blanks ht hs

theorem Reached.stop_le (h : Reached u ls state) : ∀ l ∈ ls, l.stop ≤ u.length := by
  induction h with
  | initial => exact fun l hl => absurd hl List.not_mem_nil
  | step _ blanks ht hs ih =>
    rw [List.forall_mem_append, List.forall_mem_singleton, List.length_append, List.length_append]
    exact ⟨fun l hl => Nat.le_add_right_of_le (ih l hl), Nat.le_of_eq (Nat.add_assoc _ _ _)⟩

theorem Reached.stop_eq (h : Reached u ls state) (hl : l ∈ ls.getLast?) : l.stop = u.length := by
  cases h with
  | initial => cases hl
  | step _ blanks ht hs =>
    rw [List.getLast?_concat] at hl
    obtain rfl := Option.some.inj hl
    rw [List.length_append, List.length_append, Nat.add_assoc]

theorem Reached.exists_complete (h : Reached u ls state) (hl : l ∈ ls.getLast?)
    (hn : l.token = .numeral n) : ∃ outer lead term, state = complete outer lead term := by
  cases h with
  | initial => cases hl
  | step _ blanks ht hs =>
    rw [List.getLast?_concat] at hl
    obtain rfl := Option.some.inj hl
    obtain rfl := hn
    exact exists_complete_of_step_numeral hs

/-- What has been reached has its lexemes, whatever comes behind it. -/
theorem Reached.lexemes_append (h : Reached u ls state) (hrest : EndsAt ls rest) :
    lexemes 0 (u ++ rest) = ls ++ lexemes u.length rest := by
  induction h generalizing rest with
  | initial => rfl
  | @step u w ls state next t hreached blanks ht hs ih =>
    -- No number in front of the last lexeme goes on with it.
    have hends : EndsAt ls (blanks.val ++ (w ++ rest)) := by
      intro l hl n hn
      obtain ⟨outer, lead, term, rfl⟩ := hreached.exists_complete hl hn
      have hstops : Numeral.Stops (blanks.val ++ (w ++ rest)) :=
        stops_blanks_append blanks (stops_of_step_complete hs ht)
      exact ⟨hstops.ends n, hstops.not_dangles n⟩
    have hlast (p : Nat) : lexemes p (w ++ rest) = ⟨t, p, p + w.length⟩ :: lexemes _ rest :=
      ht.lexemes_append (ne_other_of_step hs) (fun n hn => hrest _ List.getLast?_concat n hn) p
    rw [List.append_assoc, List.append_assoc, ih hends, lexemes_blanks_append _ blanks.property,
      hlast, List.append_assoc, List.length_append, List.length_append, Nat.add_assoc]
    rfl

theorem Reached.foldlM_eq (h : Reached u ls state) :
    (ls.map Lexeme.token).foldlM Reading.step Reading.initial = .ok state := by
  induction h with
  | initial => rfl
  | step _ blanks ht hs ih =>
    rw [List.map_append, List.foldlM_append, ih]
    change ([_] : List Token).foldlM Reading.step _ = _
    rw [List.foldlM_cons, hs]
    rfl

/-- Reading goes on from the state that has been reached. -/
theorem Reached.after (h : Reached u ls state) (hrest : EndsAt ls rest) :
    Reading.initial.after (u ++ rest) = state.after rest := by
  rw [Reading.after, tokens, h.lexemes_append hrest, List.map_append, List.foldlM_append,
    h.foldlM_eq, map_token_lexemes]
  rfl

end Reading

/-! ## The place in a text -/

/-- A place that a text is read up to. -/
structure Progress (cs : List Char) where
  /-- What has been read. -/
  read : List Char
  /-- The lexemes of it. -/
  lexemes : List Lexeme
  /-- The state reached. -/
  state : Reading
  /-- The blanks passed on the way to what comes next. -/
  blanks : Blanks
  /-- What comes next. -/
  rest : List Char
  reached : Reading.Reached read lexemes state
  text_eq : read ++ (blanks.val ++ rest) = cs
  lexemes_eq : Derivatives.lexemes 0 cs =
    lexemes ++ Derivatives.lexemes (read.length + blanks.val.length) rest
  ends : ∀ l ∈ lexemes.getLast?, ∀ n, l.token = .numeral n → n.Ends (blanks.val ++ rest)
  isBlank_head : ∀ c ∈ rest.head?, isBlank c = false

namespace Progress

variable {cs : List Char}

/-- The number of characters passed. -/
def position (p : Progress cs) : Nat := p.read.length + p.blanks.val.length

theorem take_position (p : Progress cs) : cs.take p.position = p.read ++ p.blanks.val := by
  have htake := congrArg (List.take p.position) p.text_eq
  rw [← List.append_assoc] at htake
  exact htake.symm.trans (List.take_left' List.length_append)

theorem drop_position (p : Progress cs) : cs.drop p.position = p.rest := by
  have hdrop := congrArg (List.drop p.position) p.text_eq
  rw [← List.append_assoc] at hdrop
  exact hdrop.symm.trans (List.drop_left' List.length_append)

theorem getElem?_position (p : Progress cs) : cs[p.position]? = p.rest.head? := by
  rw [← p.drop_position, List.head?_drop]

theorem position_add_length (p : Progress cs) : p.position + p.rest.length = cs.length := by
  have hlength := congrArg List.length p.text_eq
  rw [List.length_append, List.length_append, ← Nat.add_assoc] at hlength
  exact hlength

theorem mem_lexemes (p : Progress cs) {l : Lexeme}
    (hl : l ∈ Derivatives.lexemes p.position p.rest) : l ∈ Derivatives.lexemes 0 cs := by
  rw [p.lexemes_eq]
  exact List.mem_append_right _ hl

/-- Blanks behind what has been read are passed. -/
theorem exists_of_reached {u v : List Char} {ls : List Lexeme} {state : Reading}
    (hreached : Reading.Reached u ls state) (htext : cs = u ++ v)
    (hlexemes : Derivatives.lexemes 0 cs = ls ++ Derivatives.lexemes u.length v)
    (hends : ∀ l ∈ ls.getLast?, ∀ n, l.token = .numeral n → n.Ends v) :
    ∃ p : Progress cs, p.state = state ∧
      Derivatives.lexemes p.position p.rest = Derivatives.lexemes u.length v := by
  obtain ⟨bs, rest, rfl, hbs, hrest⟩ := exists_blanks_append v
  have hblanks : Derivatives.lexemes u.length (bs ++ rest) =
      Derivatives.lexemes (u.length + bs.length) rest := lexemes_blanks_append u.length hbs
  exact ⟨⟨u, ls, state, ⟨bs, hbs⟩, rest, hreached, htext.symm, hblanks ▸ hlexemes, hends, hrest⟩,
    rfl, hblanks.symm⟩

theorem exists_lexemes (p : Progress cs) {c : Char} {v : List Char} (hrest : p.rest = c :: v) :
    ∃ w rest, c :: v = w ++ rest ∧ (Token.first c v).Spelling w ∧
    (∀ n, Token.first c v = .numeral n → n.Ends rest) ∧
    ∀ q, Derivatives.lexemes q (c :: v) =
      ⟨.first c v, q, q + w.length⟩ :: Derivatives.lexemes (q + w.length) rest :=
  exists_lexemes_cons v (p.isBlank_head c (by rw [hrest]; rfl))

/-- A lexeme that can come next is passed. -/
theorem exists_step (p : Progress cs) {c : Char} {v : List Char} {next : Reading}
    (hrest : p.rest = c :: v) (hs : p.state.step (.first c v) = .ok next) :
    ∃ (p' : Progress cs) (stop : Nat), p'.state = next ∧
      Derivatives.lexemes p.position (c :: v) =
        ⟨.first c v, p.position, stop⟩ :: Derivatives.lexemes p'.position p'.rest := by
  obtain ⟨w, rest, htext, hspelling, hends, hlexemes⟩ := p.exists_lexemes hrest
  have hlength : (p.read ++ (p.blanks.val ++ w)).length = p.position + w.length := by
    rw [← List.append_assoc, List.length_append, List.length_append, position]
  have hcs : cs = p.read ++ (p.blanks.val ++ w) ++ rest := by
    have := p.text_eq
    rw [hrest, htext] at this
    simpa only [List.append_assoc] using this.symm
  have hlexemes_eq := p.lexemes_eq
  rw [hrest, hlexemes, List.append_cons] at hlexemes_eq
  obtain ⟨p', hstate, hp'⟩ := exists_of_reached (p.reached.step p.blanks hspelling hs) hcs
    (by rw [hlexemes_eq, hlength, position]) (by
      intro l hl n hn
      rw [List.getLast?_concat] at hl
      obtain rfl := Option.some.inj hl
      exact hends n hn)
  refine ⟨p', p.position + w.length, hstate, ?_⟩
  rw [hp', hlength, hlexemes]

/-- What comes next in a text, or that nothing does, is refused. -/
inductive Refuses (p : Progress cs) : Refusal → Prop
  | atEnd {err : Error} : p.rest = [] → p.state.finish = .error err → Refuses p ⟨err, cs.length⟩
  | atLexeme {err : Error} {c : Char} {v : List Char} {l : Lexeme} : p.rest = c :: v →
      l ∈ Derivatives.lexemes p.position p.rest → l.token = .first c v → l.start = p.position →
      p.state.step (.first c v) = .error err → Refuses p ⟨err, p.state.refusalPosition l⟩

/-- What is refused, is refused at some place. -/
theorem exists_refuses_of_run (p : Progress cs) {refusal : Refusal}
    (h : p.state.run cs.length (Derivatives.lexemes p.position p.rest) = .error refusal) :
    ∃ p' : Progress cs, p'.Refuses refusal := by
  -- By induction on the lexemes that are left: either the next one is refused, or reading
  -- goes on behind it.
  induction htodo : Derivatives.lexemes p.position p.rest generalizing p with
  | nil =>
    have hrest : p.rest = [] := by
      cases hcons : p.rest with
      | nil => rfl
      | cons c v =>
        obtain ⟨w, rest, -, -, -, hlexemes⟩ := p.exists_lexemes hcons
        rw [hcons, hlexemes] at htodo
        cases htodo
    rw [htodo, Reading.run] at h
    cases hfinish : p.state.finish with
    | ok e =>
      rw [hfinish] at h
      cases h
    | error err =>
      rw [hfinish] at h
      obtain rfl := Except.error.inj h
      exact ⟨p, .atEnd hrest hfinish⟩
  | cons l todo ih =>
    cases hcons : p.rest with
    | nil =>
      rw [hcons, lexemes_nil] at htodo
      cases htodo
    | cons c v =>
      rw [hcons] at htodo
      rw [hcons, htodo, Reading.run] at h
      cases hstep : p.state.step (.first c v) with
      | error err =>
        obtain ⟨w, rest, -, -, -, hlexemes⟩ := p.exists_lexemes hcons
        have hl := htodo
        rw [hlexemes] at hl
        obtain ⟨rfl, -⟩ := List.cons.inj hl
        rw [hstep] at h
        obtain rfl := Except.error.inj h
        exact ⟨p, .atLexeme hcons (by rw [hcons, htodo]; exact List.mem_cons_self) rfl rfl hstep⟩
      | ok next =>
        obtain ⟨p', stop, rfl, hp'⟩ := p.exists_step hcons hstep
        rw [htodo] at hp'
        obtain ⟨rfl, rfl⟩ := List.cons.inj hp'
        rw [hstep] at h
        exact ih p' h rfl

theorem Refuses.position_le {p : Progress cs} {refusal : Refusal} (h : p.Refuses refusal) :
    refusal.position ≤ cs.length := by
  cases h with
  | atEnd => exact Nat.le_refl _
  | @atLexeme err c v l hrest hl =>
    obtain ⟨-, hle, hstop⟩ := le_of_mem_lexemes (p.mem_lexemes hl)
    have hposition : p.state.refusalPosition l ≤ l.stop := by
      unfold Reading.refusalPosition
      split
      · exact Nat.le_refl _
      · exact hle
    exact Nat.le_trans hposition (Nat.zero_add cs.length ▸ hstop)

end Progress

/-- A text that is refused is read up to the place where what comes next is refused. -/
theorem Expr.exists_refuses {cs : List Char} {refusal : Refusal}
    (h : Expr.read cs = .error refusal) : ∃ p : Progress cs, p.Refuses refusal := by
  obtain ⟨p, hstate, hlexemes⟩ := Progress.exists_of_reached .initial (List.nil_append cs).symm rfl
    fun l hl => by cases hl
  refine p.exists_refuses_of_run ?_
  rw [hstate, hlexemes]
  exact h

theorem Cursor.readExpr_of_ok {c : Cursor} {e : Expr} (h : Expr.read c.after = .ok e) :
    c.readExpr = (.ok e, c.toEnd) := by
  rw [readExpr, h]

theorem Cursor.readExpr_of_error {c : Cursor} {refusal : Refusal}
    (h : Expr.read c.after = .error refusal) :
    c.readExpr = (.error refusal.error, c.advanceBy refusal.position) := by
  rw [readExpr, h]

theorem Cursor.read_of_readExpr_eq_error {c c' : Cursor} {err : Error}
    (h : c.readExpr = (.error err, c')) :
    ∃ position, Expr.read c.after = .error ⟨err, position⟩ ∧ c' = c.advanceBy position := by
  cases hread : Expr.read c.after with
  | ok e =>
    rw [readExpr, hread] at h
    cases h
  | error refusal =>
    rw [readExpr_of_error hread] at h
    obtain ⟨herr, rfl⟩ := Prod.mk.inj h
    obtain rfl := Except.error.inj herr
    exact ⟨refusal.position, rfl, rfl⟩

theorem Cursor.position_of_read_eq_error {line : String} {refusal : Refusal}
    (h : Expr.read (lineCharacters line) = .error refusal) :
    ((Cursor.ofLine line).advanceBy refusal.position).position = refusal.position := by
  obtain ⟨p, hp⟩ := Expr.exists_refuses h
  rw [position_advanceBy]
  exact (Nat.zero_add _).trans (Nat.min_eq_left hp.position_le)

/-- A line is refused where the cursor stops. -/
theorem Cursor.exists_refuses {line : String} {err : Error} {c : Cursor}
    (h : (Cursor.ofLine line).readExpr = (.error err, c)) :
    ∃ p : Progress (lineCharacters line), p.Refuses ⟨err, c.position⟩ := by
  obtain ⟨position, hread, rfl⟩ := read_of_readExpr_eq_error h
  rw [position_of_read_eq_error hread]
  exact Expr.exists_refuses hread

end Derivatives
