import Derivatives.Number.Numeral
import Mathlib.Data.List.Basic
import Mathlib.Data.List.TakeWhile
import Mathlib.Tactic.SplitIfs

/-!
# The form of numerals

A numeral is *well-formed* if its pieces are what they should be: digits, and a
mark and a sign of an exponent (`Numeral.WellFormed`). It is a *literal* if it
starts with a digit (`Numeral.IsLiteral`).

What is scanned is well-formed (`wellFormed_scan`), and a well-formed numeral is
scanned as a whole where nothing goes on with it (`scan_text_append`): it is
the longest that could be taken.

A literal has a value just if the magnitude it denotes is finite, and is out of
range otherwise (`value_eq`).
-/

namespace Derivatives.Number

/-- A magnitude never exceeds that of infinity. -/
theorem Decimal.magnitude_le (d : Decimal) : d.magnitude ≤ infinite := by
  unfold Decimal.magnitude
  split_ifs
  · exact Nat.zero_le _
  · exact Nat.le_refl _
  · exact Nat.zero_le _
  · exact Nat.min_le_left _ _

/-- The pieces of an exponent are what they should be, and it has a digit. -/
structure Exponent.WellFormed (e : Exponent) : Prop where
  mark : Numeral.isMark e.mark
  sign : ∀ s ∈ e.sign, s = '+' ∨ s = '-'
  digits : ∀ c ∈ e.digits, c.isDigit
  digits_ne_nil : e.digits ≠ []

theorem Exponent.wellFormed_iff (e : Exponent) :
    e.WellFormed ↔ Numeral.isMark e.mark ∧ e.sign.all (fun s => s = '+' || s = '-') ∧
      e.digits.all Char.isDigit ∧ e.digits ≠ [] := by
  simp only [List.all_eq_true, Option.all_eq_true, Bool.or_eq_true, decide_eq_true_iff]
  exact ⟨fun h => ⟨h.mark, h.sign, h.digits, h.digits_ne_nil⟩,
    fun ⟨mark, sign, digits, ne_nil⟩ => ⟨mark, sign, digits, ne_nil⟩⟩

instance (e : Exponent) : Decidable e.WellFormed := decidable_of_iff' _ e.wellFormed_iff

namespace Numeral

/-- The pieces of a numeral are what they should be. -/
structure WellFormed (n : Numeral) : Prop where
  whole : ∀ c ∈ n.whole, c.isDigit
  fraction : ∀ ds ∈ n.fraction, ∀ c ∈ ds, c.isDigit
  exponent : ∀ e ∈ n.exponent, e.WellFormed

/-- A well-formed numeral that starts with a digit. -/
structure IsLiteral (n : Numeral) : Prop extends n.WellFormed where
  whole_ne_nil : n.whole ≠ []

theorem wellFormed_iff (n : Numeral) :
    n.WellFormed ↔ n.whole.all Char.isDigit ∧ n.fraction.all (List.all · Char.isDigit) ∧
      n.exponent.all (fun e => e.WellFormed) := by
  simp only [List.all_eq_true, Option.all_eq_true, decide_eq_true_iff]
  exact ⟨fun h => ⟨h.whole, h.fraction, h.exponent⟩,
    fun ⟨whole, fraction, exponent⟩ => ⟨whole, fraction, exponent⟩⟩

instance (n : Numeral) : Decidable n.WellFormed := decidable_of_iff' _ n.wellFormed_iff

theorem isLiteral_iff (n : Numeral) : n.IsLiteral ↔ n.WellFormed ∧ n.whole ≠ [] :=
  ⟨fun h => ⟨h.toWellFormed, h.whole_ne_nil⟩, fun h => ⟨h.1, h.2⟩⟩

instance (n : Numeral) : Decidable n.IsLiteral := decidable_of_iff' _ n.isLiteral_iff

/-- A text does not start with a character that a numeral before it goes on with. -/
def Stops (rest : List Char) : Prop :=
  ∀ c ∈ rest.head?, c.isDigit = false ∧ c ≠ '.' ∧ isMark c = false

theorem stops_nil : Stops [] := fun c hc => by cases hc

theorem stops_cons {c : Char} {rest : List Char}
    (h : c.isDigit = false ∧ c ≠ '.' ∧ isMark c = false) : Stops (c :: rest) := by
  intro d hd
  obtain rfl := Option.some.inj hd
  exact h

/-! ## Runs of characters -/

section Runs

variable {p : Char → Bool} {run rest : List Char}

theorem takeWhile_append_of_head (hrun : ∀ c ∈ run, p c) (hrest : ∀ c ∈ rest.head?, p c = false) :
    (run ++ rest).takeWhile p = run := by
  rw [List.takeWhile_append_of_pos hrun]
  cases rest with
  | nil => exact List.append_nil _
  | cons c rest =>
    rw [List.takeWhile_cons_of_neg (by simp [hrest c rfl]), List.append_nil]

theorem dropWhile_append_of_head (hrun : ∀ c ∈ run, p c) (hrest : ∀ c ∈ rest.head?, p c = false) :
    (run ++ rest).dropWhile p = rest := by
  rw [List.dropWhile_append_of_pos hrun]
  cases rest with
  | nil => rfl
  | cons c rest => exact List.dropWhile_cons_of_neg (by simp [hrest c rfl])

end Runs

/-! ## What is scanned is well-formed -/

theorem sign_of_scanSign {cs : List Char} : ∀ s ∈ (scanSign cs).1, s = '+' ∨ s = '-' := by
  intro s hs
  unfold scanSign at hs
  split at hs
  · exact .inl (Option.some.inj hs).symm
  · exact .inr (Option.some.inj hs).symm
  · cases hs

theorem wellFormed_of_scanExponent {cs : List Char} {e : Exponent}
    (h : (scanExponent cs).1 = some e) : e.WellFormed := by
  cases cs with
  | nil => cases h
  | cons c cs =>
    simp only [scanExponent] at h
    split at h
    · next hc =>
      rw [Bool.and_eq_true, Bool.not_eq_true', List.isEmpty_eq_false_iff] at hc
      obtain rfl := Option.some.inj h
      exact ⟨hc.1, sign_of_scanSign, fun d hd => List.mem_takeWhile_imp hd, hc.2⟩
    · cases h

theorem wellFormed_scan (cs : List Char) : (scan cs).1.WellFormed := by
  refine ⟨fun c hc => List.mem_takeWhile_imp hc, fun ds hds c hc => ?_,
    fun e he => wellFormed_of_scanExponent he⟩
  -- The fraction is scanned from what the digits before it leave.
  change (scanFraction (cs.dropWhile Char.isDigit)).1 = some ds at hds
  unfold scanFraction at hds
  split at hds
  · obtain rfl := Option.some.inj hds
    exact List.mem_takeWhile_imp hc
  · cases hds

/-- A text that starts with a digit starts with a literal. -/
theorem isLiteral_scan {c : Char} {cs : List Char} (hc : c.isDigit) :
    (scan (c :: cs)).1.IsLiteral :=
  { wellFormed_scan (c :: cs) with
    whole_ne_nil := by simp [scan, List.takeWhile_cons_of_pos hc] }

theorem IsLiteral.exists_text_eq_cons {n : Numeral} (hn : n.IsLiteral) :
    ∃ c cs, n.text = c :: cs ∧ c.isDigit := by
  obtain ⟨c, cs, hwhole⟩ := List.exists_cons_of_ne_nil hn.whole_ne_nil
  refine ⟨c, cs ++ n.fraction.elim [] ('.' :: ·) ++ n.exponent.elim [] Exponent.text, ?_, ?_⟩
  · rw [text, hwhole, List.cons_append, List.cons_append]
  · exact hn.whole c (by rw [hwhole]; exact List.mem_cons_self)

/-- The characters of a numeral. -/
theorem WellFormed.mem_text {n : Numeral} (hn : n.WellFormed) {c : Char} (hc : c ∈ n.text) :
    c.isDigit ∨ c = '.' ∨ isMark c ∨ c = '+' ∨ c = '-' := by
  rw [text, List.mem_append, List.mem_append] at hc
  rcases hc with (hc | hc) | hc
  · exact .inl (hn.whole c hc)
  · cases hfraction : n.fraction with
    | none =>
      rw [hfraction] at hc
      cases hc
    | some ds =>
      rw [hfraction, Option.elim_some, List.mem_cons] at hc
      rcases hc with rfl | hc
      · exact .inr (.inl rfl)
      · exact .inl (hn.fraction ds hfraction c hc)
  · cases hexponent : n.exponent with
    | none =>
      rw [hexponent] at hc
      cases hc
    | some e =>
      have he := hn.exponent e hexponent
      rw [hexponent, Option.elim_some, Exponent.text, List.mem_append, List.mem_cons,
        Option.mem_toList] at hc
      rcases hc with (rfl | hc) | hc
      · exact .inr (.inr (.inl he.mark))
      · exact .inr (.inr (.inr (he.sign c hc)))
      · exact .inl (he.digits c hc)

/-- A literal ends with a digit or its point. -/
theorem IsLiteral.getLast_text {n : Numeral} (hn : n.IsLiteral) {c : Char}
    (hc : c ∈ n.text.getLast?) : c.isDigit ∨ c = '.' := by
  cases hexponent : n.exponent with
  | none =>
    -- Without an exponent, there are no other characters.
    rw [text, hexponent, Option.elim_none, List.append_nil] at hc
    rcases List.mem_append.1 (List.mem_of_getLast? hc) with hc | hc
    · exact .inl (hn.whole c hc)
    · cases hfraction : n.fraction with
      | none =>
        rw [hfraction] at hc
        cases hc
      | some ds =>
        rw [hfraction, Option.elim_some, List.mem_cons] at hc
        exact hc.symm.imp_left (hn.fraction ds hfraction c)
  | some e =>
    have he := hn.exponent e hexponent
    rw [text, hexponent, Option.elim_some, Exponent.text, ← List.append_assoc,
      List.getLast?_append_of_ne_nil _ he.digits_ne_nil] at hc
    exact .inl (he.digits c (List.mem_of_getLast? hc))

/-! ## A numeral is scanned as a whole -/

variable {rest : List Char}

theorem ne_of_isMark {c : Char} (h : isMark c) : c.isDigit = false ∧ c ≠ '.' := by
  rw [isMark, Bool.or_eq_true, decide_eq_true_iff, decide_eq_true_iff] at h
  rcases h with rfl | rfl <;> decide

theorem ne_of_isDigit {c : Char} (h : c.isDigit) : c ≠ '+' ∧ c ≠ '-' := by
  constructor <;> rintro rfl <;> exact absurd h (by decide)

theorem scanSign_of_ne {cs : List Char} (h : ∀ c ∈ cs.head?, c ≠ '+' ∧ c ≠ '-') :
    scanSign cs = (none, cs) := by
  unfold scanSign
  split
  · exact absurd rfl (h _ rfl).1
  · exact absurd rfl (h _ rfl).2
  · rfl

theorem scanSign_cons {c : Char} (hc : c = '+' ∨ c = '-') (cs : List Char) :
    scanSign (c :: cs) = (some c, cs) := by
  rcases hc with rfl | rfl <;> rfl

theorem scanFraction_of_ne {cs : List Char} (h : ∀ c ∈ cs.head?, c ≠ '.') :
    scanFraction cs = (none, cs) := by
  unfold scanFraction
  split
  · exact absurd rfl (h _ rfl)
  · rfl

theorem scanSign_sign_append {sign : Option Char} {ds : List Char}
    (hsign : ∀ s ∈ sign, s = '+' ∨ s = '-') (hds : ∀ c ∈ ds.head?, c ≠ '+' ∧ c ≠ '-') :
    scanSign (sign.toList ++ ds) = (sign, ds) := by
  cases sign with
  | none => exact scanSign_of_ne hds
  | some s => rcases hsign s rfl with rfl | rfl <;> rfl

theorem scanExponent_text_append {exponent : Option Exponent}
    (he : ∀ e ∈ exponent, e.WellFormed) (hdigit : ∀ c ∈ rest.head?, c.isDigit = false)
    (hmark : exponent = none → ∀ c ∈ rest.head?, isMark c = false) :
    scanExponent (exponent.elim [] Exponent.text ++ rest) = (exponent, rest) := by
  cases exponent with
  | none =>
    cases rest with
    | nil => rfl
    | cons c rest => simp [scanExponent, hmark rfl c rfl]
  | some e =>
    have he := he e rfl
    have hhead : ∀ c ∈ (e.digits ++ rest).head?, c ≠ '+' ∧ c ≠ '-' := by
      obtain ⟨d, ds, hds⟩ := List.exists_cons_of_ne_nil he.digits_ne_nil
      intro c hc
      rw [hds] at hc
      obtain rfl := Option.some.inj hc
      exact ne_of_isDigit (he.digits d (by rw [hds]; exact List.mem_cons_self))
    have hnonempty : (e.digits.isEmpty) = false := List.isEmpty_eq_false_iff.2 he.digits_ne_nil
    simp only [Option.elim_some, Exponent.text, List.cons_append, List.append_assoc, scanExponent,
      scanSign_sign_append he.sign hhead, takeWhile_append_of_head he.digits hdigit,
      dropWhile_append_of_head he.digits hdigit, he.mark, hnonempty, Bool.not_false, Bool.and_self,
      if_true]

/-- Nothing is scanned as an exponent but what goes on with a mark, a sign or none, and a digit. -/
theorem scanExponent_eq_none_iff {cs : List Char} : (scanExponent cs).1 = none ↔
    ∀ m ds, cs = m :: ds → isMark m → ∀ c ∈ (scanSign ds).2.head?, c.isDigit = false := by
  have hdigits (ds : List Char) : (ds.takeWhile Char.isDigit).isEmpty ↔
      ∀ c ∈ ds.head?, c.isDigit = false := by
    cases ds with
    | nil => simp
    | cons d ds => cases hd : d.isDigit <;> simp [hd]
  cases cs with
  | nil => exact iff_of_true rfl fun m ds h => by cases h
  | cons m ds =>
    have hsplit : (scanExponent (m :: ds)).1 = none ↔
        (isMark m → ((scanSign ds).2.takeWhile Char.isDigit).isEmpty) := by
      rw [scanExponent]
      rcases scanSign ds with ⟨sign, ds⟩
      dsimp only
      cases isMark m <;> cases (ds.takeWhile Char.isDigit).isEmpty <;> simp
    rw [hsplit, hdigits]
    refine ⟨?_, fun h hmark => h m ds rfl hmark⟩
    rintro h m ds ⟨⟩ hmark
    exact h hmark

/-- A text does not go on with a numeral in front of it, unless with an exponent. -/
def Ends (n : Numeral) (rest : List Char) : Prop :=
  ∀ c ∈ rest.head?, c.isDigit = false ∧ (c = '.' → n.fraction.isSome ∨ n.exponent.isSome)

/-- What could be an exponent of a numeral stands behind it. -/
def Dangles (n : Numeral) (rest : List Char) : Prop :=
  n.exponent = none ∧ ∃ c ∈ rest.head?, isMark c

theorem Stops.ends (hrest : Stops rest) (n : Numeral) : n.Ends rest :=
  fun c hc => ⟨(hrest c hc).1, fun h => absurd h (hrest c hc).2.1⟩

theorem Stops.not_dangles (hrest : Stops rest) (n : Numeral) : ¬ n.Dangles rest := by
  rintro ⟨-, c, hc, hmark⟩
  rw [(hrest c hc).2.2] at hmark
  cases hmark

/-- Behind the fraction, no digit comes, and no point if there is no fraction. -/
theorem Ends.head_exponent_text_append {n : Numeral} (hn : n.WellFormed) (hrest : n.Ends rest) :
    ∀ c ∈ (n.exponent.elim [] Exponent.text ++ rest).head?,
      c.isDigit = false ∧ (c = '.' → n.fraction.isSome) := by
  intro c hc
  cases hexponent : n.exponent with
  | none =>
    rw [hexponent] at hc
    refine ⟨(hrest c hc).1, fun hpoint => ?_⟩
    simpa [hexponent] using (hrest c hc).2 hpoint
  | some e =>
    rw [hexponent] at hc
    obtain rfl := Option.some.inj hc
    have hmark := ne_of_isMark (hn.exponent e hexponent).mark
    exact ⟨hmark.1, fun hpoint => absurd hpoint hmark.2⟩

/-- A well-formed numeral is scanned as a whole if its exponent is, where it ends. -/
theorem scan_text_append_of_scanExponent {n : Numeral} (hn : n.WellFormed) (hends : n.Ends rest)
    (hexponent : scanExponent (n.exponent.elim [] Exponent.text ++ rest) = (n.exponent, rest)) :
    scan (n.text ++ rest) = (n, rest) := by
  have htail := hends.head_exponent_text_append hn
  obtain ⟨whole, fraction, exponent⟩ := n
  -- From the right: each piece ends where the next one, or the rest, starts.
  let tail := exponent.elim [] Exponent.text ++ rest
  have htail' : ∀ c ∈ tail.head?, c.isDigit = false := fun c hc => (htail c hc).1
  have hfraction : scanFraction (fraction.elim [] ('.' :: ·) ++ tail) = (fraction, tail) := by
    cases fraction with
    | none =>
      exact scanFraction_of_ne fun c hc hpoint => absurd ((htail c hc).2 hpoint) Bool.false_ne_true
    | some ds =>
      simp only [Option.elim_some, List.cons_append, scanFraction,
        takeWhile_append_of_head (hn.fraction ds rfl) htail',
        dropWhile_append_of_head (hn.fraction ds rfl) htail']
  have hhead : ∀ c ∈ (fraction.elim [] ('.' :: ·) ++ tail).head?, c.isDigit = false := by
    cases fraction with
    | none => exact htail'
    | some ds =>
      intro c hc
      obtain rfl := Option.some.inj hc
      decide
  have htext : Numeral.text ⟨whole, fraction, exponent⟩ ++ rest =
      whole ++ (fraction.elim [] ('.' :: ·) ++ tail) := by
    simp only [text, tail, List.append_assoc]
  rw [htext, scan, takeWhile_append_of_head hn.whole hhead, dropWhile_append_of_head hn.whole hhead,
    hfraction]
  simp only [tail, hexponent]

/-- A well-formed numeral is scanned as a whole, where it ends. -/
theorem scan_text_append_of_ends {n : Numeral} (hn : n.WellFormed) (hends : n.Ends rest)
    (hdangles : ¬ n.Dangles rest) : scan (n.text ++ rest) = (n, rest) :=
  scan_text_append_of_scanExponent hn hends <|
    scanExponent_text_append hn.exponent (fun c hc => (hends c hc).1) fun hnone c hc =>
      Bool.eq_false_iff.2 fun hmark => hdangles ⟨hnone, c, hc, hmark⟩

/-- A well-formed numeral is scanned as a whole, where nothing goes on with it. -/
theorem scan_text_append {n : Numeral} (hn : n.WellFormed) (hrest : Stops rest) :
    scan (n.text ++ rest) = (n, rest) :=
  scan_text_append_of_ends hn (hrest.ends n) (hrest.not_dangles n)

/-! ## The longest numeral is scanned -/

theorem isDigit_of_head_dropWhile {c : Char} {cs : List Char}
    (hc : c ∈ (cs.dropWhile Char.isDigit).head?) : c.isDigit = false := by
  have := List.head?_dropWhile_not Char.isDigit cs
  rw [Option.mem_def.1 hc] at this
  simpa using this

/-- What is left of a text without a digit at its start, when its fraction is taken. -/
theorem head_scanFraction {cs : List Char} (hcs : ∀ c ∈ cs.head?, c.isDigit = false) :
    ∀ c ∈ (scanFraction cs).2.head?,
      c.isDigit = false ∧ (c = '.' → (scanFraction cs).1.isSome) := by
  intro c hc
  unfold scanFraction at hc ⊢
  split at hc
  · exact ⟨isDigit_of_head_dropWhile hc, fun _ => rfl⟩
  · next hpoint =>
    refine ⟨hcs c hc, ?_⟩
    rintro rfl
    obtain ⟨rest, rfl⟩ := List.head?_eq_some_iff.1 hc
    exact absurd rfl (hpoint rest)

theorem head_scanExponent {cs : List Char} (h : (scanExponent cs).1.isSome) :
    ∀ c ∈ (scanExponent cs).2.head?, c.isDigit = false := by
  intro c hc
  cases cs with
  | nil => cases h
  | cons d cs =>
    simp only [scanExponent] at h hc
    split at h
    · next hmark =>
      rw [if_pos hmark] at hc
      exact isDigit_of_head_dropWhile hc
    · cases h

/-- What is scanned ends where the rest starts. -/
theorem ends_scan (cs : List Char) : (scan cs).1.Ends (scan cs).2 := by
  have hdigits : ∀ c ∈ (cs.dropWhile Char.isDigit).head?, c.isDigit = false :=
    fun c hc => isDigit_of_head_dropWhile hc
  have hfraction := head_scanFraction hdigits
  intro c hc
  change c ∈ (scanExponent (scanFraction (cs.dropWhile Char.isDigit)).2).2.head? at hc
  cases hexponent : (scanExponent (scanFraction (cs.dropWhile Char.isDigit)).2).1 with
  | none =>
    -- Without an exponent, the rest is what the fraction leaves.
    have hrest := scanExponent_append (scanFraction (cs.dropWhile Char.isDigit)).2
    rw [hexponent, Option.elim_none, List.nil_append] at hrest
    rw [hrest] at hc
    exact ⟨(hfraction c hc).1, fun hpoint => .inl ((hfraction c hc).2 hpoint)⟩
  | some e =>
    have hsome := Option.isSome_of_eq_some hexponent
    exact ⟨head_scanExponent hsome c hc, fun _ => .inr hsome⟩

/-- Where nothing goes on with them, texts of numerals tell them apart. -/
theorem text_append_inj {n n' : Numeral} {rest' : List Char} (hn : n.WellFormed)
    (hn' : n'.WellFormed) (hrest : Stops rest) (hrest' : Stops rest')
    (h : n.text ++ rest = n'.text ++ rest') : n = n' ∧ rest = rest' := by
  rw [← Prod.mk.injEq, ← scan_text_append hn hrest, h, scan_text_append hn' hrest']

/-! ## The value of a literal -/

/-- The double a numeral denotes, of which it has one if the magnitude is finite. -/
def double (n : Numeral) : Float := ofMagnitude false n.decimal.magnitude

/-- A numeral denotes a finite magnitude. -/
def IsFinite (n : Numeral) : Prop := n.decimal.magnitude < infinite

instance (n : Numeral) : Decidable n.IsFinite := Nat.decLt _ _

/-- A literal has the value it denotes, or is out of range. -/
theorem value_eq {n : Numeral} (hn : n.IsLiteral) :
    n.value = if n.IsFinite then .ok n.double
      else .error (.numberOutOfRange (String.ofList n.text)) := by
  have hmantissa : n.mantissa.isEmpty = false := by
    rw [List.isEmpty_eq_false_iff, mantissa]
    exact List.append_ne_nil_of_left_ne_nil hn.whole_ne_nil _
  have hle := n.decimal.magnitude_le
  have hfinite : n.decimal.magnitude = infinite ↔ ¬ n.IsFinite := by
    rw [IsFinite]
    omega
  rw [value, if_neg (by rw [hmantissa]; exact Bool.false_ne_true)]
  simp only [hfinite, ite_not, double]

theorem value_eq_ok_iff {n : Numeral} (hn : n.IsLiteral) {v : Float} :
    n.value = .ok v ↔ n.IsFinite ∧ n.double = v := by
  rw [value_eq hn]
  split_ifs with h <;> simp [h]

theorem value_eq_error_iff {n : Numeral} (hn : n.IsLiteral) {err : Error} :
    n.value = .error err ↔ ¬ n.IsFinite ∧ .numberOutOfRange (String.ofList n.text) = err := by
  rw [value_eq hn]
  split_ifs with h <;> simp [h]

end Numeral

end Derivatives.Number
