import Derivatives.Proofs.Grammar
import Derivatives.Proofs.Number.Numeral

/-!
# Blanks and the letter of the variable

A line can be written with more blanks, and with the variable in either case. A `Respacing` says
how: which blanks come in addition in every place, and which letters change. It is applied to a
text character by character (`Respacing.apply`), and the token of every character stays the same
(`Respacing.ofChar_letter`).

For a numeral, several characters are looked at, also some behind it: a mark there may start an
exponent. It is scanned as before if no blanks come within it, whatever comes behind it
(`Respacing.scan_text_append_apply`): neither blanks nor the letter of the variable make an
exponent of what was none.
-/

namespace Derivatives

open Number Grammar

/-- The letter of the variable in the other case; any other character as it is. -/
def swapCase (c : Char) : Char := if c = 'x' then 'X' else if c = 'X' then 'x' else c

/-- What is done to the blanks of a text and to the letter of the variable in it. -/
structure Respacing where
  /-- The blanks that come in addition, in front of the character at an index, and behind the
      last one. -/
  blanks : Nat → Blanks
  /-- Whether the letter at an index changes its case. -/
  swaps : Nat → Bool

namespace Respacing

/-- What is done from an index on. -/
def drop (r : Respacing) (n : Nat) : Respacing :=
  ⟨fun i => r.blanks (n + i), fun i => r.swaps (n + i)⟩

/-- The first character of a text, in the case that is asked for. -/
def letter (r : Respacing) (c : Char) : Char := if r.swaps 0 then swapCase c else c

/-- A text behind the blanks in front of it. -/
def applyBehind (r : Respacing) : List Char → List Char
  | [] => []
  | c :: cs => r.letter c :: ((r.drop 1).blanks 0 ++ (r.drop 1).applyBehind cs)

/-- A text with the blanks and letters that are asked for. -/
def apply (r : Respacing) (cs : List Char) : List Char := r.blanks 0 ++ r.applyBehind cs

/-- The number of blanks that come in addition in front of the first `n` characters. -/
def inserted (r : Respacing) (n : Nat) : Nat :=
  ((List.range n).flatMap fun i => (r.blanks i).val).length

/-- No blanks come in addition within a numeral that ends at a position at the latest: where
    reading stops there, these are the numerals that have been read. -/
def Keeps (r : Respacing) (ls : List Lexeme) (position : Nat) : Prop :=
  ∀ l ∈ ls, ∀ n, l.token = .numeral n → l.stop ≤ position →
    ∀ i, l.start < i → i < l.stop → (r.blanks i).val = []

variable {r : Respacing} {c d : Char} {cs rest w : List Char}

/-! ## Letters -/

/-- A character is as it was, or it is the letter of the variable as before. -/
theorem letter_eq_or (r : Respacing) (c : Char) :
    r.letter c = c ∨ (c = 'x' ∨ c = 'X') ∧ (r.letter c = 'x' ∨ r.letter c = 'X') := by
  rw [letter, swapCase]
  split_ifs with hswap hx hX
  · exact .inr ⟨.inl hx, .inr rfl⟩
  · exact .inr ⟨.inr hX, .inl rfl⟩
  · exact .inl rfl
  · exact .inl rfl

theorem letter_of_ne (r : Respacing) (hc : c ≠ 'x' ∧ c ≠ 'X') : r.letter c = c :=
  (r.letter_eq_or c).resolve_right fun h => h.1.elim hc.1 hc.2

theorem letter_of_isDigit (r : Respacing) (hd : c.isDigit) : r.letter c = c :=
  r.letter_of_ne ⟨fun h => absurd hd (by rw [h]; decide), fun h => absurd hd (by rw [h]; decide)⟩

theorem ofChar_letter (r : Respacing) (c : Char) : Token.ofChar (r.letter c) = .ofChar c := by
  rcases r.letter_eq_or c with h | ⟨hc, hletter⟩
  · rw [h]
  · have hvar : ∀ d, d = 'x' ∨ d = 'X' → Token.ofChar d = .var := by
      rintro d (rfl | rfl) <;> rfl
    rw [hvar _ hletter, hvar _ hc]

/-- What holds of the letter of the variable in either case, holds of a character as it is
    if it held before. -/
theorem forall_letter {P : Char → Prop} (hx : P 'x') (hX : P 'X') (h : P c) : P (r.letter c) := by
  rcases r.letter_eq_or c with hletter | ⟨-, hletter | hletter⟩ <;> rw [hletter]
  · exact h
  · exact hx
  · exact hX

/-! ## Numbers of blanks -/

theorem drop_zero (r : Respacing) : r.drop 0 = r := by
  simp only [drop, Nat.zero_add]

theorem drop_drop (r : Respacing) (m n : Nat) : (r.drop m).drop n = r.drop (m + n) := by
  simp only [drop, Nat.add_assoc]

theorem inserted_succ (r : Respacing) (n : Nat) :
    r.inserted (n + 1) = r.inserted n + (r.blanks n).val.length := by
  rw [inserted, List.range_succ, List.flatMap_append, List.length_append, List.flatMap_singleton]
  rfl

/-- Where none come in addition, their number stays the same. -/
theorem inserted_add {k : Nat} (n : Nat) (h : ∀ i, k ≤ i → i < k + n → (r.blanks i).val = []) :
    r.inserted (k + n) = r.inserted k := by
  induction n with
  | zero => rfl
  | succ n ih =>
    rw [← Nat.add_assoc, inserted_succ, ih fun i hle hlt => h i hle (Nat.lt_succ_of_lt hlt),
      h (k + n) (Nat.le_add_right k n) (Nat.lt_succ_self _)]
    rfl

/-- Characters without blanks in between, none of which is the letter of the variable, stay as
    they are. -/
theorem applyBehind_append (hne : w ≠ []) (hletters : ∀ c ∈ w, c ≠ 'x' ∧ c ≠ 'X')
    (h : ∀ i, 0 < i → i < w.length → (r.blanks i).val = []) :
    r.applyBehind (w ++ rest) = w ++ (r.drop w.length).apply rest := by
  induction w generalizing r with
  | nil => exact absurd rfl hne
  | cons c w ih =>
    rw [List.cons_append, applyBehind, r.letter_of_ne (hletters c List.mem_cons_self)]
    cases w with
    | nil => rfl
    | cons d w =>
      have hnone : ((r.drop 1).blanks 0).val = [] :=
        h 1 Nat.one_pos (Nat.succ_lt_succ (Nat.succ_pos _))
      rw [hnone, ih (List.cons_ne_nil d w) (fun c hc => hletters c (List.mem_cons_of_mem _ hc))
        fun i hpos hlt => h (1 + i) (by omega) (by rw [List.length_cons]; omega), drop_drop,
        Nat.add_comm 1]
      rfl

/-! ## Numerals -/

theorem ne_of_mem_text {n : Numeral} (hn : n.WellFormed) (hc : c ∈ n.text) :
    c ≠ 'x' ∧ c ≠ 'X' := by
  have hform := hn.mem_text hc
  constructor <;> rintro rfl <;> exact absurd hform (by decide)

theorem apply_of_eq_nil (h : (r.blanks 0).val = []) (cs : List Char) :
    r.apply cs = r.applyBehind cs := by
  rw [apply, h, List.nil_append]

/-- Where blanks come in addition, a blank comes first. -/
theorem head_apply_of_ne_nil {P : Char → Prop} (h : (r.blanks 0).val ≠ []) (hspace : P ' ')
    (htab : P '\t') : ∀ c ∈ (r.apply cs).head?, P c := by
  obtain ⟨b, bs, hblanks⟩ := List.exists_cons_of_ne_nil h
  intro c hc
  rw [apply, hblanks] at hc
  obtain rfl := Option.some.inj hc
  rcases eq_of_isBlank ((r.blanks 0).property b (by rw [hblanks]; exact List.mem_cons_self)) with
    rfl | rfl
  · exact hspace
  · exact htab

/-- What holds of blanks, of the letter of the variable and of the first character of a text,
    holds of the first one it has then. -/
theorem forall_head_apply {P : Char → Prop} (hspace : P ' ') (htab : P '\t') (hx : P 'x')
    (hX : P 'X') (h : ∀ c ∈ cs.head?, P c) : ∀ c ∈ (r.apply cs).head?, P c := by
  by_cases hblanks : (r.blanks 0).val = []
  · rw [apply_of_eq_nil hblanks]
    cases cs with
    | nil => exact h
    | cons d cs =>
      intro c hc
      obtain rfl := Option.some.inj hc
      exact forall_letter hx hX (h d rfl)
  · exact head_apply_of_ne_nil hblanks hspace htab

/-- Behind a sign or none, digits do not come if they did not come before. -/
theorem isDigit_head_scanSign_apply
    (h : ∀ c ∈ (Numeral.scanSign cs).2.head?, c.isDigit = false) :
    ∀ c ∈ (Numeral.scanSign (r.apply cs)).2.head?, c.isDigit = false := by
  by_cases hsign : ∃ c ds, cs = c :: ds ∧ (c = '+' ∨ c = '-')
  · obtain ⟨c, ds, rfl, hc⟩ := hsign
    by_cases hblanks : (r.blanks 0).val = []
    · have hletter : r.letter c = c := r.letter_of_ne (by rcases hc with rfl | rfl <;> decide)
      rw [Numeral.scanSign_cons hc] at h
      rw [apply_of_eq_nil hblanks, applyBehind, hletter, Numeral.scanSign_cons hc]
      exact forall_head_apply rfl rfl rfl rfl h
    · rw [Numeral.scanSign_of_ne (head_apply_of_ne_nil hblanks (by decide) (by decide))]
      exact head_apply_of_ne_nil hblanks rfl rfl
  · have hne : ∀ c ∈ cs.head?, c ≠ '+' ∧ c ≠ '-' := by
      intro c hc
      obtain ⟨ds, rfl⟩ := List.head?_eq_some_iff.1 hc
      exact not_or.1 fun h => hsign ⟨c, ds, rfl, h⟩
    rw [Numeral.scanSign_of_ne hne] at h
    rw [Numeral.scanSign_of_ne (forall_head_apply (by decide) (by decide) (by decide) (by decide)
      hne)]
    exact forall_head_apply rfl rfl rfl rfl h

/-- What was no exponent is none. -/
theorem scanExponent_apply (h : (Numeral.scanExponent cs).1 = none) :
    Numeral.scanExponent (r.apply cs) = (none, r.apply cs) := by
  have hnone : (Numeral.scanExponent (r.apply cs)).1 = none := by
    refine Numeral.scanExponent_eq_none_iff.2 fun m ds happly hmark => ?_
    by_cases hblanks : (r.blanks 0).val = []
    · rw [apply_of_eq_nil hblanks] at happly
      cases cs with
      | nil => cases happly
      | cons c cs =>
        obtain ⟨hletter, rfl⟩ := List.cons.inj happly
        -- The letter of the variable is no mark in either case.
        have hc : c = m := by
          rcases r.letter_eq_or c with hc | ⟨-, hc | hc⟩
          · exact hc.symm.trans hletter
          · rw [← hletter, hc] at hmark
            cases hmark
          · rw [← hletter, hc] at hmark
            cases hmark
        exact isDigit_head_scanSign_apply
          (Numeral.scanExponent_eq_none_iff.1 h c cs rfl (hc ▸ hmark))
    · have hne : ∀ c ∈ (r.apply cs).head?, Numeral.isMark c = false :=
        head_apply_of_ne_nil hblanks rfl rfl
      rw [hne m (by rw [happly]; rfl)] at hmark
      cases hmark
  have happend := Numeral.scanExponent_append (r.apply cs)
  rw [hnone] at happend
  exact Prod.ext hnone happend

/-- A numeral is scanned as before. -/
theorem scan_text_append_apply (cs : List Char) :
    Numeral.scan ((Numeral.scan cs).1.text ++ r.apply (Numeral.scan cs).2) =
      ((Numeral.scan cs).1, r.apply (Numeral.scan cs).2) := by
  have hends : (Numeral.scan cs).1.Ends (r.apply (Numeral.scan cs).2) :=
    forall_head_apply ⟨rfl, nofun⟩ ⟨rfl, nofun⟩ ⟨rfl, nofun⟩ ⟨rfl, nofun⟩ (Numeral.ends_scan cs)
  have hwellFormed := Numeral.wellFormed_scan cs
  refine Numeral.scan_text_append_of_scanExponent hwellFormed hends ?_
  cases hexponent : (Numeral.scan cs).1.exponent with
  | none =>
    -- Without an exponent, the rest is what the fraction leaves.
    have hscan : (Numeral.scanExponent
        (Numeral.scanFraction (cs.dropWhile Char.isDigit)).2).1 = none := hexponent
    have hrest := Numeral.scanExponent_append
      (Numeral.scanFraction (cs.dropWhile Char.isDigit)).2
    rw [hscan] at hrest
    refine scanExponent_apply ?_
    exact (congrArg (fun v => (Numeral.scanExponent v).1) hrest).trans hscan
  | some e =>
    refine Numeral.scanExponent_text_append ?_ (fun c hc => (hends c hc).1) nofun
    rintro e' ⟨⟩
    exact hwellFormed.exponent e hexponent

end Respacing

end Derivatives
