import Derivatives.Proofs.Number.Numeral
import Derivatives.Token

/-!
# The tokens of a text

The lexemes of a text are found piece by piece: blanks make none
(`lexemes_blanks_append`), a literal makes one where it ends
(`lexemes_literal_append`), and so does any other character (`lexemes_cons`). Where a
text stands only shifts its lexemes (`lexemes_add`), so what its tokens are (`tokens`)
does not depend on it.

The other way around, a text is blank up to its first token
(`exists_blanks_append`), which is spelled out where it stands
(`Token.first`, `exists_lexemes_cons`), and a text without tokens is blank
(`isBlank_of_tokens_eq_nil`).
-/

namespace Derivatives

open Number

variable {c : Char} {cs bs rest : List Char} {t : Token} {ts : List Token}

/-! ## The lexemes, piece by piece -/

theorem lexemes_nil (p : Nat) : lexemes p [] = [] := by rw [lexemes]

/-- Blanks make no lexeme. -/
theorem lexemes_blanks_append (p : Nat) (hbs : ∀ c ∈ bs, isBlank c) :
    lexemes p (bs ++ cs) = lexemes (p + bs.length) cs := by
  induction bs generalizing p with
  | nil => rfl
  | cons b bs ih =>
    rw [List.cons_append, lexemes, if_pos (hbs b List.mem_cons_self),
      ih (p + 1) fun c hc => hbs c (List.mem_cons_of_mem b hc), List.length_cons, Nat.add_assoc,
      Nat.add_comm 1]

/-- A character that neither is a blank nor starts a literal makes one lexeme. -/
theorem lexemes_cons (p : Nat) (hc : isBlank c = false) (hd : c.isDigit = false) :
    lexemes p (c :: cs) = ⟨.ofChar c, p, p + 1⟩ :: lexemes (p + 1) cs := by
  rw [lexemes, if_neg (by rw [hc]; exact Bool.false_ne_true),
    if_neg (by rw [hd]; exact Bool.false_ne_true)]

theorem isBlank_of_isDigit (hc : c.isDigit) : isBlank c = false := by
  rw [isBlank, Bool.or_eq_false_iff]
  constructor <;> rw [decide_eq_false_iff_not] <;> rintro rfl <;> exact absurd hc (by decide)

theorem lexemes_cons_of_isDigit (p : Nat) (cs : List Char) (hd : c.isDigit) :
    lexemes p (c :: cs) =
      ⟨.numeral (Numeral.scan (c :: cs)).1, p, p + (Numeral.scan (c :: cs)).1.text.length⟩ ::
        lexemes (p + (Numeral.scan (c :: cs)).1.text.length) (Numeral.scan (c :: cs)).2 := by
  rw [lexemes, if_neg (by rw [isBlank_of_isDigit hd]; exact Bool.false_ne_true), if_pos hd]

/-- A literal makes one lexeme, where it ends. -/
theorem lexemes_literal_append (p : Nat) {n : Numeral} (hn : n.IsLiteral) (hends : n.Ends rest)
    (hdangles : ¬ n.Dangles rest) :
    lexemes p (n.text ++ rest) =
      ⟨.numeral n, p, p + n.text.length⟩ :: lexemes (p + n.text.length) rest := by
  have hscan := Numeral.scan_text_append_of_ends hn.toWellFormed hends hdangles
  obtain ⟨c, cs, htext, hd⟩ := hn.exists_text_eq_cons
  have hcons := lexemes_cons_of_isDigit p (cs ++ rest) hd
  rw [← List.cons_append, ← htext, hscan] at hcons
  exact hcons

/-- A lexeme stands in the text it is one of. -/
theorem le_of_mem_lexemes {p : Nat} {l : Lexeme} (hl : l ∈ lexemes p cs) :
    p ≤ l.start ∧ l.start ≤ l.stop ∧ l.stop ≤ p + cs.length := by
  fun_induction lexemes p cs with
  | case1 => cases hl
  | case2 p c cs hc ih =>
    obtain ⟨hstart, hle, hstop⟩ := ih hl
    rw [List.length_cons]
    omega
  | case3 p c cs hc hd stop ih =>
    have hlength := Numeral.length_scan (c :: cs)
    rcases List.mem_cons.1 hl with rfl | hl
    · exact ⟨Nat.le_refl _, Nat.le_add_right _ _, Nat.add_le_add_left (by omega) p⟩
    · obtain ⟨hstart, hle, hstop⟩ := ih hl
      omega
  | case4 p c cs hc hd ih =>
    rcases List.mem_cons.1 hl with rfl | hl
    · exact ⟨Nat.le_refl _, Nat.le_succ _, Nat.add_le_add_left (Nat.le_add_left 1 _) p⟩
    · obtain ⟨hstart, hle, hstop⟩ := ih hl
      rw [List.length_cons]
      omega

/-- A lexeme, `k` characters further on. -/
def Lexeme.shift (k : Nat) (l : Lexeme) : Lexeme := ⟨l.token, l.start + k, l.stop + k⟩

/-- The lexemes of a text that stands further on. -/
theorem lexemes_add (p k : Nat) (cs : List Char) :
    lexemes (p + k) cs = (lexemes p cs).map (Lexeme.shift k) := by
  fun_induction lexemes p cs with
  | case1 => rw [lexemes_nil, List.map_nil]
  | case2 p c cs hc ih => rw [lexemes, if_pos hc, Nat.add_right_comm, ih]
  | case3 p c cs hc hd stop ih =>
    rw [lexemes_cons_of_isDigit _ cs hd, Nat.add_right_comm, ih]
    rfl
  | case4 p c cs hc hd ih =>
    rw [lexemes_cons _ (Bool.eq_false_iff.2 hc) (Bool.eq_false_iff.2 hd), Nat.add_right_comm, ih]
    rfl

/-! ## The tokens, piece by piece -/

/-- The tokens of a text. -/
def tokens (cs : List Char) : List Token := (lexemes 0 cs).map Lexeme.token

theorem map_token_lexemes (p : Nat) (cs : List Char) :
    (lexemes p cs).map Lexeme.token = tokens cs := by
  rw [tokens, ← Nat.zero_add p, lexemes_add, List.map_map]
  rfl

theorem tokens_nil : tokens [] = [] := congrArg _ (lexemes_nil 0)

theorem tokens_of_lexemes_eq_cons {p q : Nat} {l : Lexeme}
    (h : lexemes p cs = l :: lexemes q rest) : tokens cs = l.token :: tokens rest := by
  rw [← map_token_lexemes p, h, List.map_cons, map_token_lexemes]

theorem tokens_cons (hc : isBlank c = false) (hd : c.isDigit = false) :
    tokens (c :: cs) = .ofChar c :: tokens cs :=
  tokens_of_lexemes_eq_cons (lexemes_cons 0 hc hd)

theorem tokens_blanks_append (hbs : ∀ c ∈ bs, isBlank c) : tokens (bs ++ cs) = tokens cs := by
  rw [tokens, lexemes_blanks_append 0 hbs, map_token_lexemes]

/-- A literal makes one token, where nothing goes on with it. -/
theorem tokens_literal_append {n : Numeral} (hn : n.IsLiteral) (hrest : Numeral.Stops rest) :
    tokens (n.text ++ rest) = .numeral n :: tokens rest :=
  tokens_of_lexemes_eq_cons
    (lexemes_literal_append 0 hn (hrest.ends n) (hrest.not_dangles n))

/-! ## The text of the tokens -/

/-- The texts that make one token. -/
inductive Token.Spelling : Token → List Char → Prop
  | numeral {n : Numeral} : n.IsLiteral → Spelling (.numeral n) n.text
  | var {c : Char} : c = 'x' ∨ c = 'X' → Spelling .var [c]
  | operator (op : Operator) : Spelling (.operator op) [op.symbol]
  | leftParenthesis : Spelling .leftParenthesis ['(']
  | rightParenthesis : Spelling .rightParenthesis [')']
  | other (c : Char) : Spelling (.other c) [c]

theorem Token.spelling_ofChar (c : Char) : (Token.ofChar c).Spelling [c] := by
  unfold Token.ofChar
  split
  · exact .var (.inl rfl)
  · exact .var (.inr rfl)
  · exact .leftParenthesis
  · exact .rightParenthesis
  -- What is left is the symbol of an operator, or means nothing.
  · unfold Operator.ofSymbol?
    split
    · exact .operator .add
    · exact .operator .sub
    · exact .operator .mul
    · exact .operator .div
    · exact .other c

theorem Token.ofChar_ne_numeral (c : Char) (n : Numeral) : Token.ofChar c ≠ .numeral n := by
  unfold Token.ofChar
  split
  any_goals exact Token.noConfusion
  cases Operator.ofSymbol? c <;> exact Token.noConfusion

theorem Operator.eq_symbol_of_ofSymbol? {op : Operator} (h : Operator.ofSymbol? c = some op) :
    c = op.symbol := by
  unfold Operator.ofSymbol? at h
  split at h <;> cases h <;> rfl

theorem Operator.ofSymbol?_of_isDigit (hd : c.isDigit) : Operator.ofSymbol? c = none := by
  cases hop : Operator.ofSymbol? c with
  | none => rfl
  | some op =>
    obtain rfl := Operator.eq_symbol_of_ofSymbol? hop
    cases op <;> exact absurd hd (by decide)

/-- A character without a place in an expression. -/
theorem Token.eq_of_ofChar_eq_other {c' : Char} (h : Token.ofChar c = .other c') :
    c' = c ∧ Operator.ofSymbol? c = none ∧ c ≠ 'x' ∧ c ≠ 'X' ∧ c ≠ '(' ∧ c ≠ ')' := by
  unfold Token.ofChar at h
  split at h
  any_goals cases h
  next hx hX hleft hright =>
  cases hop : Operator.ofSymbol? c with
  | none =>
    rw [hop] at h
    exact ⟨(Token.other.inj h).symm, rfl, hx, hX, hleft, hright⟩
  | some op =>
    rw [hop] at h
    cases h

/-- A text that makes one token is that token's, in front of any text that a literal does
    not go on with. -/
theorem Token.Spelling.lexemes_append {w : List Char} (ht : t.Spelling w)
    (hother : ∀ c, t ≠ .other c) (hn : ∀ n, t = .numeral n → n.Ends rest ∧ ¬ n.Dangles rest)
    (p : Nat) :
    lexemes p (w ++ rest) = ⟨t, p, p + w.length⟩ :: lexemes (p + w.length) rest := by
  cases ht with
  | numeral h => exact lexemes_literal_append p h (hn _ rfl).1 (hn _ rfl).2
  | var hc => rcases hc with rfl | rfl <;> exact lexemes_cons p rfl (by decide)
  | operator op => cases op <;> exact lexemes_cons p rfl (by decide)
  | leftParenthesis | rightParenthesis => exact lexemes_cons p rfl (by decide)
  | other c => exact absurd rfl (hother c)

/-- The token that a text with the given first character, other than a blank, starts
    with. -/
def Token.first (c : Char) (cs : List Char) : Token :=
  if c.isDigit then .numeral (Numeral.scan (c :: cs)).1 else .ofChar c

theorem Token.first_of_isDigit (hd : c.isDigit) :
    Token.first c cs = .numeral (Numeral.scan (c :: cs)).1 := if_pos hd

theorem Token.first_of_not_isDigit (hd : c.isDigit = false) : Token.first c cs = .ofChar c :=
  if_neg (by rw [hd]; exact Bool.false_ne_true)

theorem Token.first_symbol (op : Operator) : Token.first op.symbol cs = .operator op := by
  cases op <;> rfl

/-- The first token of a text is spelled out where it stands. -/
theorem exists_lexemes_cons (cs : List Char) (hc : isBlank c = false) : ∃ w rest,
    c :: cs = w ++ rest ∧ (Token.first c cs).Spelling w ∧
    (∀ n, Token.first c cs = .numeral n → n.Ends rest) ∧
    ∀ p, lexemes p (c :: cs) = ⟨.first c cs, p, p + w.length⟩ :: lexemes (p + w.length) rest := by
  rcases hd : c.isDigit with _ | _
  · rw [Token.first_of_not_isDigit hd]
    exact ⟨[c], cs, rfl, Token.spelling_ofChar c,
      fun n hn => absurd hn (Token.ofChar_ne_numeral c n), fun p => lexemes_cons p hc hd⟩
  · rw [Token.first_of_isDigit hd]
    refine ⟨_, _, (Numeral.text_scan (c :: cs)).symm, .numeral (Numeral.isLiteral_scan hd),
      fun n hn => ?_, fun p => lexemes_cons_of_isDigit p cs hd⟩
    obtain rfl := Token.numeral.inj hn
    exact Numeral.ends_scan (c :: cs)

/-- A text is blank up to a first character that is not. -/
theorem exists_blanks_append (cs : List Char) :
    ∃ bs v, cs = bs ++ v ∧ (∀ c ∈ bs, isBlank c) ∧ ∀ c ∈ v.head?, isBlank c = false := by
  refine ⟨cs.takeWhile isBlank, cs.dropWhile isBlank, List.takeWhile_append_dropWhile.symm,
    fun c hc => List.mem_takeWhile_imp hc, fun c hc => ?_⟩
  have := List.head?_dropWhile_not isBlank cs
  rw [Option.mem_def.1 hc] at this
  simpa using this

theorem isBlank_of_tokens_eq_nil (h : tokens cs = []) : ∀ c ∈ cs, isBlank c := by
  obtain ⟨bs, v, rfl, hbs, hv⟩ := exists_blanks_append cs
  cases v with
  | nil => rwa [List.append_nil]
  | cons c v =>
    obtain ⟨w, rest, -, -, -, hlexemes⟩ := exists_lexemes_cons v (hv c rfl)
    rw [tokens_blanks_append hbs, tokens_of_lexemes_eq_cons (hlexemes 0)] at h
    cases h

/-- The first token of a text is spelled out behind its blanks. -/
theorem exists_of_tokens_eq_cons (h : tokens cs = t :: ts) :
    ∃ bs w rest, (∀ c ∈ bs, isBlank c) ∧ t.Spelling w ∧ cs = bs ++ (w ++ rest) ∧
      tokens rest = ts := by
  obtain ⟨bs, v, rfl, hbs, hv⟩ := exists_blanks_append cs
  rw [tokens_blanks_append hbs] at h
  cases v with
  | nil =>
    rw [tokens_nil] at h
    cases h
  | cons c v =>
    obtain ⟨w, rest, htext, hspelling, -, hlexemes⟩ := exists_lexemes_cons v (hv c rfl)
    rw [tokens_of_lexemes_eq_cons (hlexemes 0)] at h
    obtain ⟨rfl, rfl⟩ := List.cons.inj h
    exact ⟨bs, w, rest, hbs, hspelling, by rw [htext], rfl⟩

end Derivatives
