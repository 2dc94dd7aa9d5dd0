import Derivatives.Proofs.Number.Display

/-!
# Reading texts of numbers

The text of a numeral is read as the double it denotes, if it has a digit in front of its
exponent (`read?_text`): it starts with no sign, and it is none of the words for what has no
digits. A minus sign in front of it is that of the double. So the text of a finite double is
read as the same double (`read?_display`).
-/

namespace Derivatives.Number

variable {n : Numeral} {c : Char}

/-! ## Texts of numerals -/

theorem toLower_of_isDigit (hd : c.isDigit) : c.toLower = c := by
  rw [Char.isDigit, Bool.and_eq_true, decide_eq_true_iff, decide_eq_true_iff] at hd
  have hle : c.val.toNat ≤ 57 := hd.2
  refine dif_neg fun ⟨hA, _⟩ => ?_
  have hge : 65 ≤ c.val.toNat := hA
  omega

/-- The letter that all the words have is none of a numeral. -/
theorem toLower_ne_of_mem_text (hn : n.WellFormed) (hc : c ∈ n.text) : c.toLower ≠ 'n' := by
  rcases hn.mem_text hc with hd | rfl | hmark | rfl | rfl
  · rw [toLower_of_isDigit hd]
    rintro rfl
    exact absurd hd (by decide)
  · decide
  · rw [Numeral.isMark, Bool.or_eq_true, decide_eq_true_iff, decide_eq_true_iff] at hmark
    rcases hmark with rfl | rfl <;> decide
  · decide
  · decide

theorem wordMagnitude?_text (hn : n.WellFormed) :
    wordMagnitude? (n.text.map Char.toLower) = none := by
  have hne (word : List Char) (hword : 'n' ∈ word) : n.text.map Char.toLower ≠ word := by
    rintro rfl
    obtain ⟨c, hc, hlower⟩ := List.mem_map.1 hword
    exact toLower_ne_of_mem_text hn hc hlower
  rw [wordMagnitude?, if_neg (not_or.2 ⟨hne _ (by decide), hne _ (by decide)⟩),
    if_neg (hne _ (by decide))]

/-- Without a digit in front of its exponent, a numeral is no text of a number. -/
theorem readMagnitude?_text (hn : n.WellFormed) :
    readMagnitude? n.text = if n.mantissa = [] then none else some n.decimal.magnitude := by
  have hscan := Numeral.scan_text_append hn Numeral.stops_nil
  rw [List.append_nil] at hscan
  rw [readMagnitude?, wordMagnitude?_text hn, hscan, Option.none_or]
  change (if (true && !n.mantissa.isEmpty) = true then _ else _) = _
  cases n.mantissa <;> rfl

/-- A numeral starts with no sign. -/
theorem scanSign_text (hn : n.WellFormed) : Numeral.scanSign n.text = (none, n.text) := by
  obtain ⟨whole, fraction, exponent⟩ := n
  refine Numeral.scanSign_of_ne fun c hc => ?_
  cases whole with
  | cons d ds =>
    obtain rfl := Option.some.inj hc
    exact Numeral.ne_of_isDigit (hn.whole _ List.mem_cons_self)
  | nil =>
    cases fraction with
    | some ds =>
      obtain rfl := Option.some.inj hc
      decide
    | none =>
      cases exponent with
      | some e =>
        obtain rfl := Option.some.inj hc
        have hmark := (hn.exponent e rfl).mark
        rw [Numeral.isMark, Bool.or_eq_true, decide_eq_true_iff, decide_eq_true_iff] at hmark
        rcases hmark with h | h <;> rw [h] <;> decide
      | none => cases hc

theorem read?_text (hn : n.WellFormed) :
    read? (String.ofList n.text) =
      if n.mantissa = [] then none else some (ofMagnitude false n.decimal.magnitude) := by
  rw [read?, String.toList_ofList, scanSign_text hn]
  simp only [readMagnitude?_text hn]
  split_ifs <;> rfl

/-! ## Texts of doubles -/

/-- The text of a finite double is read as that double. -/
theorem read?_display {x : Float} (hx : magnitude x < infinite) : read? (display x) = some x := by
  obtain ⟨n, htext, hn, -, hmagnitude⟩ := exists_display_eq_sign_append hx
  have hmantissa : n.mantissa ≠ [] := List.append_ne_nil_of_left_ne_nil hn.whole_ne_nil _
  have hread : readMagnitude? n.text = some (magnitude x) := by
    rw [readMagnitude?_text hn.toWellFormed, if_neg hmantissa, hmagnitude]
  have hsign : Numeral.scanSign (display x).toList =
      (if isNegative x then some '-' else none, n.text) := by
    rw [htext, signText]
    split_ifs
    · rfl
    · exact scanSign_text hn.toWellFormed
  rw [read?, hsign]
  simp only [hread, Option.map_some]
  have hminus : decide ((if isNegative x then some '-' else none) = some '-') = isNegative x := by
    cases isNegative x <;> rfl
  rw [hminus, ofMagnitude_isNegative hx]

end Derivatives.Number
