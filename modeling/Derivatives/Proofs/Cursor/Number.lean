import Derivatives.Proofs.Cursor
import Derivatives.Proofs.Number.Rounding

/-!
# Reading numbers from a cursor

The numeral that is scanned from a text is the longest one that the text starts with: any
other numeral there is where each of its pieces starts, and digits are taken as long as there
are any (`Numeral.text_isPrefix_scan`). Its text can be taken apart in one way only
(`Numeral.eq_of_text_eq`).

A cursor passes just that text, whether or not it has a value, and gives the double nearest
to the number it denotes, if it has a digit in front of its exponent and that double is finite
(`Cursor.readNumber_longest`).
-/

namespace Derivatives

namespace Number.Numeral

variable {m n : Numeral} {cs : List Char}

/-- An exponent is scanned together with all digits that come behind it. -/
theorem scanExponent_exponent_append {e : Exponent} (he : e.WellFormed) (rest : List Char) :
    scanExponent (e.text ++ rest) =
      (some ⟨e.mark, e.sign, e.digits ++ rest.takeWhile Char.isDigit⟩,
        rest.dropWhile Char.isDigit) := by
  obtain ⟨d, ds, hds⟩ := List.exists_cons_of_ne_nil he.digits_ne_nil
  have hhead : ∀ c ∈ (e.digits ++ rest).head?, c ≠ '+' ∧ c ≠ '-' := by
    rw [hds]
    rintro c ⟨⟩
    exact ne_of_isDigit (he.digits d (by rw [hds]; exact List.mem_cons_self))
  have hnonempty : (e.digits ++ rest.takeWhile Char.isDigit).isEmpty = false := by
    rw [hds]
    rfl
  simp only [Exponent.text, List.cons_append, List.append_assoc, scanExponent,
    scanSign_sign_append he.sign hhead, List.takeWhile_append_of_pos he.digits,
    List.dropWhile_append_of_pos he.digits, he.mark, hnonempty, Bool.not_false, Bool.and_self,
    if_true]

/-- An exponent starts with neither a digit nor a point. -/
theorem head_exponent_append {e : Exponent} (he : e.WellFormed) (rest : List Char) :
    ∀ c ∈ (e.text ++ rest).head?, c.isDigit = false ∧ c ≠ '.' := by
  rintro c ⟨⟩
  exact ne_of_isMark he.mark

theorem takeWhile_eq_nil_of_head (h : ∀ c ∈ cs.head?, c.isDigit = false) :
    cs.takeWhile Char.isDigit = [] := by
  change ([] ++ cs).takeWhile Char.isDigit = []
  exact takeWhile_append_of_head (List.forall_mem_nil _) h

theorem dropWhile_eq_self_of_head (h : ∀ c ∈ cs.head?, c.isDigit = false) :
    cs.dropWhile Char.isDigit = cs := by
  change ([] ++ cs).dropWhile Char.isDigit = cs
  exact dropWhile_append_of_head (List.forall_mem_nil _) h

/-- A numeral that a text starts with is part of the one that is scanned. -/
theorem text_isPrefix_scan (hm : m.WellFormed) (rest : List Char) :
    m.text <+: (scan (m.text ++ rest)).1.text := by
  obtain ⟨whole, fraction, exponent⟩ := m
  have hwhole := hm.whole
  -- Only behind the last piece of the numeral, digits that are left are taken as well.
  cases fraction with
  | none =>
    cases exponent with
    | none =>
      simp only [text, Option.elim_none, List.append_nil, scan,
        List.takeWhile_append_of_pos hwhole, List.append_assoc]
      exact List.prefix_append _ _
    | some e =>
      have he := hm.exponent e rfl
      have hhead := head_exponent_append he rest
      have hpoint := scanFraction_of_ne fun c hc => (hhead c hc).2
      simp only [text, Option.elim_none, Option.elim_some, List.append_nil, scan,
        List.append_assoc, List.takeWhile_append_of_pos hwhole,
        List.dropWhile_append_of_pos hwhole, takeWhile_eq_nil_of_head fun c hc => (hhead c hc).1,
        dropWhile_eq_self_of_head fun c hc => (hhead c hc).1, hpoint,
        scanExponent_exponent_append he]
      exact ⟨rest.takeWhile Char.isDigit, by simp [Exponent.text]⟩
  | some ds =>
    have hds := hm.fraction ds rfl
    have hpoint (w : List Char) : ∀ c ∈ ('.' :: w).head?, c.isDigit = false := by
      rintro c ⟨⟩
      decide
    cases exponent with
    | none =>
      simp only [text, Option.elim_none, Option.elim_some, List.append_nil, scan,
        List.append_assoc, List.cons_append, List.takeWhile_append_of_pos hwhole,
        List.dropWhile_append_of_pos hwhole, takeWhile_eq_nil_of_head (hpoint _),
        dropWhile_eq_self_of_head (hpoint _), scanFraction, List.takeWhile_append_of_pos hds,
        List.dropWhile_append_of_pos hds]
      exact ⟨rest.takeWhile Char.isDigit ++
        (scanExponent (rest.dropWhile Char.isDigit)).1.elim [] Exponent.text, by simp⟩
    | some e =>
      have he := hm.exponent e rfl
      have hhead := head_exponent_append he rest
      simp only [text, Option.elim_some, scan, List.append_assoc, List.cons_append,
        List.takeWhile_append_of_pos hwhole, List.dropWhile_append_of_pos hwhole,
        takeWhile_eq_nil_of_head (hpoint _), dropWhile_eq_self_of_head (hpoint _), scanFraction,
        List.takeWhile_append_of_pos hds, List.dropWhile_append_of_pos hds,
        takeWhile_eq_nil_of_head fun c hc => (hhead c hc).1,
        dropWhile_eq_self_of_head fun c hc => (hhead c hc).1, scanExponent_exponent_append he]
      exact ⟨rest.takeWhile Char.isDigit, by simp [Exponent.text]⟩

/-- The text of a numeral can be taken apart in one way only. -/
theorem eq_of_text_eq (hm : m.WellFormed) (hn : n.WellFormed) (h : m.text = n.text) : m = n :=
  (text_append_inj hm hn stops_nil stops_nil (by rw [h])).1

/-- A numeral with a digit in front of its exponent has the value nearest to the number it
    denotes, if that is finite. -/
theorem value_of_mantissa_ne_nil (h : n.mantissa ≠ []) :
    n.value = if n.decimal.magnitude = infinite
      then .error (.numberOutOfRange (String.ofList n.text))
      else .ok (ofMagnitude false n.decimal.magnitude) :=
  if_neg fun hempty => h (List.isEmpty_iff.1 hempty)

theorem value_of_mantissa_eq_nil (h : n.mantissa = []) :
    n.value = .error (.invalidNumber (String.ofList n.text)) :=
  if_pos (List.isEmpty_iff.2 h)

end Number.Numeral

open Number

namespace Cursor

theorem before_readNumber (c : Cursor) :
    c.readNumber.2.before = (Numeral.scan c.after).1.text.reverse ++ c.before := by
  have htake := List.prefix_iff_eq_take.1 ⟨_, Numeral.text_scan c.after⟩
  rw [readNumber, advanceBy, ← htake]

/-- A cursor passes the longest numeral that is left on the line, of which there is only one
    reading, and nothing else, whether or not the numeral has a value. If it has a digit in
    front of its exponent, the value is the double nearest to the number it denotes, unless
    that is infinite. -/
theorem readNumber_longest (c : Cursor) : ∃ n : Numeral, ∃ b : Nat,
    n.WellFormed ∧
    (∀ m : Numeral, m.WellFormed → m.text <+: c.after →
      m.text <+: n.text ∧ (m.text = n.text → m = n)) ∧
    c.after = n.text ++ c.readNumber.2.after ∧
    c.readNumber.2.before = n.text.reverse ++ c.before ∧
    ((∃ literal, c.readNumber.1 = .error (.invalidNumber literal)) ↔ n.mantissa = []) ∧
    IsNearest n.decimal.toRat b ∧
    c.readNumber.1 =
      if n.mantissa = [] then .error (.invalidNumber (String.ofList n.text))
      else if b = infinite then .error (.numberOutOfRange (String.ofList n.text))
      else .ok (ofMagnitude false b) := by
  have hwellFormed := Numeral.wellFormed_scan c.after
  refine ⟨(Numeral.scan c.after).1, (Numeral.scan c.after).1.decimal.magnitude, hwellFormed,
    fun m hm hprefix => ⟨?_, Numeral.eq_of_text_eq hm hwellFormed⟩, ?_, ?_, ?_,
    Decimal.isNearest_magnitude _, ?_⟩
  · obtain ⟨rest, hrest⟩ := hprefix
    rw [← hrest]
    exact Numeral.text_isPrefix_scan hm rest
  · rw [after_readNumber, Numeral.text_scan]
  · rw [before_readNumber]
  · rw [readNumber]
    refine ⟨?_, fun h => ⟨_, Numeral.value_of_mantissa_eq_nil h⟩⟩
    rintro ⟨literal, h⟩
    -- With a digit in front of the exponent, the only error is that the number is out of range.
    by_contra hmantissa
    rw [Numeral.value_of_mantissa_ne_nil hmantissa] at h
    split at h <;> cases h
  · rw [readNumber]
    split_ifs with hmantissa hinfinite
    · exact Numeral.value_of_mantissa_eq_nil hmantissa
    · exact (Numeral.value_of_mantissa_ne_nil hmantissa).trans (if_pos hinfinite)
    · exact (Numeral.value_of_mantissa_ne_nil hmantissa).trans (if_neg hinfinite)

/-- The letter of an exponent without a digit is left. -/
example : (Cursor.ofLine "2e+x").readNumber.2.rest = "e+x" := by decide +kernel

end Cursor

end Derivatives
