import Derivatives.Proofs.Cursor.Number
import Derivatives.Proofs.Descent.Reading
import Derivatives.Proofs.Number.Reading

/-!
# Cursors by index

A cursor can be kept as the characters of its line and an index into them (`IndexedLine`). Then
care has to be taken of the index: it is moved on without a look at the number of characters
wherever a character of some kind has been seen, it goes back to the mark of an exponent without
a digit, and characters are cut out between two indices, which have to be in order and in the
line.

The end of line is of no such kind, so the index never leaves the line. Whatever a cursor does,
it does by index as well (`Cursor.indexed`): it skips blanks (`Cursor.passWhile_indexed`), reads
numbers (`Cursor.readNumber?_indexed`), takes what is left (`Cursor.toEnd?_indexed`), and reads
expressions token by token (`Cursor.readExpr_indexed`).
-/

namespace Derivatives

open Number

/-! ## Lines with an index -/

/-- The characters of a line, and an index into them. -/
structure IndexedLine where
  /-- The characters of the line. -/
  characters : List Char
  /-- The index of the next character. -/
  index : Nat
  deriving DecidableEq, Repr

namespace IndexedLine

/-- The start of a line. -/
def ofLine (line : String) : IndexedLine := ⟨lineCharacters line, 0⟩

/-- The next character, or the end of line. -/
def peek (s : IndexedLine) : Char := s.characters[s.index]?.getD endOfLine

/-- The index is moved on, whatever stands there. -/
def bump (s : IndexedLine) : IndexedLine := { s with index := s.index + 1 }

/-- Passes the next character, if there is one. -/
def advance (s : IndexedLine) : IndexedLine :=
  if s.index < s.characters.length then s.bump else s

/-- Whether no character is left. -/
def atEnd (s : IndexedLine) : Bool := s.characters.length ≤ s.index

/-- The characters between two indices, which have to be in order and in the line. -/
def slice? (s : IndexedLine) (start stop : Nat) : Option (List Char) :=
  if start ≤ stop ∧ stop ≤ s.characters.length then some ((s.characters.take stop).drop start)
  else none

/-- Where something else than the end of line is seen, a character comes next. -/
theorem index_lt_of_peek_ne {s : IndexedLine} (h : s.peek ≠ endOfLine) :
    s.index < s.characters.length := by
  by_contra hle
  rw [peek, List.getElem?_eq_none (Nat.not_lt.1 hle)] at h
  exact h rfl

theorem index_lt_of_kind {s : IndexedLine} {kind : Char → Bool} (hkind : kind endOfLine = false)
    (h : kind s.peek) : s.index < s.characters.length :=
  index_lt_of_peek_ne fun hpeek => Bool.false_ne_true (by rw [← hkind, ← hpeek, h])

/-- Passes the characters that come next as long as they are of a kind, which the end of line
    is not: the index is moved on without a look at the number of characters. -/
def passWhile (kind : Char → Bool) (hkind : kind endOfLine = false) (s : IndexedLine) :
    IndexedLine :=
  if _ : kind s.peek then s.bump.passWhile kind hkind else s
termination_by s.characters.length - s.index
decreasing_by
  have hlt := index_lt_of_kind hkind ‹_›
  change s.characters.length - (s.index + 1) < s.characters.length - s.index
  omega

/-- Passes all blanks that come next. -/
def skipBlanks (s : IndexedLine) : IndexedLine := s.passWhile isBlank rfl

/-- Passes all digits that come next. -/
def passDigits (s : IndexedLine) : IndexedLine := s.passWhile Char.isDigit (by decide)

/-- Passes a point and the digits behind it. -/
def passFraction (s : IndexedLine) : IndexedLine :=
  if s.peek = '.' then s.bump.passDigits else s

/-- Passes a sign. -/
def passSign (s : IndexedLine) : IndexedLine :=
  if s.peek = '+' ∨ s.peek = '-' then s.bump else s

/-- Passes an exponent, but goes back to where it starts if it has no digit. -/
def passExponent (s : IndexedLine) : IndexedLine :=
  if Numeral.isMark s.peek then
    let digits := s.bump.passSign
    let passed := digits.passDigits
    if passed.index - digits.index = 0 then { passed with index := s.index } else passed
  else s

/-- The value of the text of a numeral. -/
def literalValue (text : String) : Except Error Float :=
  match read? text with
  | none => .error (.invalidNumber text)
  | some x => if x.isFinite then .ok x else .error (.numberOutOfRange text)

/-- Passes the numeral that comes next and cuts it out. -/
def readNumber? (s : IndexedLine) : Option (Except Error Float × IndexedLine) :=
  let passed := s.passDigits.passFraction.passExponent
  (passed.slice? s.index passed.index).map fun literal =>
    (literalValue (String.ofList literal), passed)

/-- Passes all characters that are left and cuts them out. -/
def toEnd? (s : IndexedLine) : Option (String × IndexedLine) :=
  (s.slice? s.index s.characters.length).map fun rest =>
    (String.ofList rest, { s with index := s.characters.length })

/-- Takes the next character of an expression as a token. -/
def takeCharacter (s : IndexedLine) (state : Reading) : Except Error Reading × IndexedLine :=
  match state.step (.ofChar s.peek) with
  | .error err => (.error err, s)
  | .ok next => (.ok next, s.advance)

/-- Takes the next token of an expression: where an operand has to come, a digit starts a
    number. -/
def take? (s : IndexedLine) : Reading → Option (Except Error Reading × IndexedLine)
  | .awaiting outer pending =>
    if s.peek.isDigit then
      s.readNumber?.map fun (result, s) =>
        (result.map fun value => .afterOperand outer pending (.constant value), s)
    else some (s.takeCharacter (.awaiting outer pending))
  | .complete outer lead term => some (s.takeCharacter (.complete outer lead term))

/-- Reads the remaining tokens of an expression, by a number of steps at most. -/
def read? (s : IndexedLine) : Nat → Reading → Option (Except Error Expr × IndexedLine)
  | 0, _ => none
  | steps + 1, state =>
    if s.skipBlanks.atEnd then some (state.finish, s.skipBlanks)
    else
      (s.skipBlanks.take? state).bind fun
        | (.error err, s) => some (.error err, s)
        | (.ok next, s) => s.read? steps next

end IndexedLine

/-! ## The index of a cursor -/

namespace Cursor

/-- A cursor as a line with an index. -/
def indexed (c : Cursor) : IndexedLine := ⟨c.characters, c.position⟩

variable {c : Cursor} {n : Nat} {d : Char} {cs : List Char}

theorem getElem?_position (c : Cursor) : c.characters[c.position]? = c.after.head? := by
  rw [characters, position, ← List.length_reverse, List.getElem?_append_right (Nat.le_refl _),
    Nat.sub_self, List.head?_eq_getElem?]

theorem indexed_advanceBy (h : n ≤ c.after.length) :
    (c.advanceBy n).indexed = ⟨c.characters, c.position + n⟩ := by
  rw [indexed, characters_advanceBy, position_advanceBy, Nat.min_eq_left h]

theorem index_indexed_advanceBy (h : n ≤ c.after.length) :
    (c.advanceBy n).indexed.index = c.indexed.index + n := by
  rw [indexed_advanceBy h]
  rfl

theorem peek_indexed (c : Cursor) : c.indexed.peek = c.peek := by
  rw [IndexedLine.peek, indexed, getElem?_position, peek, List.headD_eq_head?_getD]

theorem bump_indexed (h : c.after = d :: cs) : c.indexed.bump = c.advance.indexed := by
  rw [advance, indexed_advanceBy (by rw [h]; exact Nat.le_add_left 1 _)]
  rfl

theorem peek_of_after (h : c.after = d :: cs) : c.peek = d := by
  rw [peek, h]
  rfl

theorem peek_of_mem_head? (h : d ∈ c.after.head?) : c.peek = d := by
  rw [peek, List.headD_eq_head?_getD, h, Option.getD_some]

theorem passWhile_indexed (kind : Char → Bool) (hkind : kind endOfLine = false) (c : Cursor) :
    c.indexed.passWhile kind hkind =
      (c.advanceBy (c.after.takeWhile kind).length).indexed := by
  induction hafter : c.after generalizing c with
  | nil =>
    have hpeek : ¬ kind c.indexed.peek := by
      rw [peek_indexed, peek, hafter, List.headD_nil, hkind]
      exact Bool.false_ne_true
    rw [IndexedLine.passWhile, dif_neg hpeek]
    rfl
  | cons d cs ih =>
    have hpeek : c.indexed.peek = d := by rw [peek_indexed, peek_of_after hafter]
    rw [IndexedLine.passWhile]
    by_cases hd : kind d
    · rw [dif_pos (hpeek ▸ hd), bump_indexed hafter, ih c.advance (after_advance hafter),
        List.takeWhile_cons_of_pos hd, advance, advanceBy_advanceBy, List.length_cons,
        Nat.add_comm]
    · rw [dif_neg (hpeek ▸ hd), List.takeWhile_cons_of_neg hd]
      rfl

theorem skipBlanks_indexed (c : Cursor) : c.indexed.skipBlanks = c.skipBlanks.indexed :=
  passWhile_indexed isBlank rfl c

theorem passDigits_indexed (c : Cursor) : c.indexed.passDigits =
    (c.advanceBy (c.after.takeWhile Char.isDigit).length).indexed :=
  passWhile_indexed Char.isDigit (by decide) c

theorem advance_of_after_eq_nil (h : c.after = []) : c.advance = c := by
  obtain ⟨before, after⟩ := c
  obtain rfl : after = [] := h
  rfl

theorem advance_indexed (c : Cursor) : c.indexed.advance = c.advance.indexed := by
  have hlength : c.indexed.characters.length = c.indexed.index + c.after.length :=
    length_characters c
  rw [IndexedLine.advance, hlength]
  cases hafter : c.after with
  | nil => rw [List.length_nil, Nat.add_zero, if_neg (Nat.lt_irrefl _),
      advance_of_after_eq_nil hafter]
  | cons d cs => rw [List.length_cons, if_pos (Nat.lt_add_of_pos_right (Nat.succ_pos _)),
      bump_indexed hafter]

theorem atEnd_indexed (c : Cursor) : c.indexed.atEnd = c.atEnd := by
  have hlength : c.indexed.characters.length = c.indexed.index + c.after.length :=
    length_characters c
  rw [IndexedLine.atEnd, hlength, atEnd]
  cases c.after with
  | nil => exact decide_eq_true (Nat.le_refl _)
  | cons d cs => exact decide_eq_false (Nat.not_le.2 (Nat.lt_add_of_pos_right (Nat.succ_pos _)))

theorem slice?_indexed {n : Nat} (h : n ≤ c.after.length) {s : IndexedLine}
    (hs : s.characters = c.characters) :
    s.slice? c.position (c.position + n) = some (c.after.take n) := by
  have hlength := length_characters c
  rw [IndexedLine.slice?, hs, if_pos ⟨Nat.le_add_right _ _, by omega⟩, List.drop_take,
    Nat.add_sub_cancel_left, drop_position]

/-! ## Numerals -/

theorem passFraction_indexed (c : Cursor) : c.indexed.passFraction =
    (c.advanceBy ((Numeral.scanFraction c.after).1.elim [] ('.' :: ·)).length).indexed := by
  rw [IndexedLine.passFraction, peek_indexed]
  split_ifs with hpeek
  · have hafter := c.after_eq_cons_of_peek hpeek (by decide)
    rw [bump_indexed hafter, passDigits_indexed, advance, advanceBy_advanceBy, ← advance, hafter,
      Numeral.scanFraction, Option.elim_some, List.length_cons, Nat.add_comm]
  · have hne : ∀ d ∈ c.after.head?, d ≠ '.' := by
      rintro d hd rfl
      exact hpeek (peek_of_mem_head? hd)
    rw [Numeral.scanFraction_of_ne hne]
    rfl

theorem passSign_indexed (c : Cursor) : c.indexed.passSign =
    (c.advanceBy (Numeral.scanSign c.after).1.toList.length).indexed := by
  rw [IndexedLine.passSign, peek_indexed]
  split_ifs with hpeek
  · have hafter := c.after_eq_cons_of_peek rfl fun h => absurd hpeek (by rw [h]; decide)
    rw [bump_indexed hafter, hafter, Numeral.scanSign_cons hpeek]
    rfl
  · have hne : ∀ d ∈ c.after.head?, d ≠ '+' ∧ d ≠ '-' := by
      intro d hd
      exact not_or.1 (peek_of_mem_head? hd ▸ hpeek)
    rw [Numeral.scanSign_of_ne hne]
    rfl

theorem passExponent_indexed (c : Cursor) : c.indexed.passExponent =
    (c.advanceBy ((Numeral.scanExponent c.after).1.elim [] Exponent.text).length).indexed := by
  rw [IndexedLine.passExponent, peek_indexed]
  split_ifs with hmark
  · have hafter := c.after_eq_cons_of_peek rfl fun h => absurd hmark (by rw [h]; decide)
    rw [bump_indexed hafter, passSign_indexed, hafter]
    generalize c.peek = d at hafter hmark
    obtain ⟨cs, hcs⟩ : ∃ cs, c.advance.after = cs := ⟨_, rfl⟩
    obtain ⟨sign, ds, hscan⟩ : ∃ sign ds, Numeral.scanSign cs = (sign, ds) := ⟨_, _, rfl⟩
    have hsign : sign.toList ++ ds = cs := by rw [← Numeral.scanSign_append cs, hscan]
    have hdigits := after_advanceBy (hcs.trans hsign.symm)
    have hle : (ds.takeWhile Char.isDigit).length ≤
        (c.advance.advanceBy sign.toList.length).after.length := by
      rw [hdigits]
      exact (List.takeWhile_prefix _).length_le
    rw [hcs, Numeral.scanExponent, hscan, hmark]
    dsimp only
    rw [passDigits_indexed, hdigits, index_indexed_advanceBy hle, Nat.add_sub_cancel_left]
    -- Without a digit behind the mark, the index goes back to where the mark stands.
    cases ds.takeWhile Char.isDigit with
    | nil =>
      rw [if_pos List.length_nil, indexed, characters_advanceBy, characters_advanceBy, advance,
        characters_advanceBy]
      rfl
    | cons e es =>
      have hlength : (Exponent.text ⟨d, sign, e :: es⟩).length =
          1 + (sign.toList.length + (e :: es).length) := by
        rw [Exponent.text, List.length_append, List.length_cons, Nat.add_right_comm, Nat.add_comm]
      rw [if_neg (by exact Nat.succ_ne_zero _), advance, advanceBy_advanceBy, advanceBy_advanceBy,
        ← hlength]
      rfl
  · cases hafter : c.after with
    | nil => rfl
    | cons d cs =>
      have hd : Numeral.isMark d = false := by
        rwa [peek_of_after hafter, Bool.not_eq_true] at hmark
      rw [Numeral.scanExponent, hd]
      rfl

theorem passNumber_indexed (c : Cursor) : c.indexed.passDigits.passFraction.passExponent =
    (c.advanceBy (Numeral.scan c.after).1.text.length).indexed := by
  have hdigits : (c.advanceBy (c.after.takeWhile Char.isDigit).length).after =
      c.after.dropWhile Char.isDigit :=
    after_advanceBy List.takeWhile_append_dropWhile.symm
  have hfraction := after_advanceBy
    (hdigits.trans (Numeral.scanFraction_append (c.after.dropWhile Char.isDigit)).symm)
  rw [passDigits_indexed, passFraction_indexed, hdigits, passExponent_indexed, hfraction,
    advanceBy_advanceBy, advanceBy_advanceBy, Numeral.text, List.length_append,
    List.length_append, Nat.add_assoc]
  rfl

/-- The text of a numeral has the value of the numeral. -/
theorem literalValue_text {n : Numeral} (hn : n.WellFormed) :
    IndexedLine.literalValue (String.ofList n.text) = n.value := by
  rw [IndexedLine.literalValue, read?_text hn]
  split_ifs with hmantissa
  · exact (Numeral.value_of_mantissa_eq_nil hmantissa).symm
  · rw [Numeral.value_of_mantissa_ne_nil hmantissa]
    dsimp only
    split_ifs with hfinite hinfinite hinfinite
    · rw [isFinite_iff, hinfinite] at hfinite
      exact absurd hfinite (by decide)
    · rfl
    · rfl
    · have hlt := Nat.lt_of_le_of_ne n.decimal.magnitude_le hinfinite
      exact absurd (isFinite_iff.2 (isUnsigned_ofMagnitude hlt).finite) hfinite

theorem readNumber?_indexed (c : Cursor) :
    c.indexed.readNumber? = some (c.readNumber.1, c.readNumber.2.indexed) := by
  have hle : (Numeral.scan c.after).1.text.length ≤ c.after.length := by
    rw [← Numeral.length_scan c.after]
    exact Nat.le_add_right _ _
  have htake := List.prefix_iff_eq_take.1 ⟨_, Numeral.text_scan c.after⟩
  have hcharacters : (c.advanceBy (Numeral.scan c.after).1.text.length).indexed.characters =
      c.characters := c.characters_advanceBy _
  rw [IndexedLine.readNumber?, passNumber_indexed, index_indexed_advanceBy hle]
  change Option.map _ (IndexedLine.slice? _ c.position (c.position + _)) = _
  rw [slice?_indexed hle hcharacters, ← htake, Option.map_some,
    literalValue_text (Numeral.wellFormed_scan _)]
  rfl

theorem toEnd?_indexed (c : Cursor) : c.indexed.toEnd? = some (c.rest, c.toEnd.indexed) := by
  have hlength : c.indexed.characters.length = c.position + c.after.length := length_characters c
  rw [IndexedLine.toEnd?, hlength]
  change Option.map _ (IndexedLine.slice? _ c.position (c.position + _)) = _
  rw [slice?_indexed (Nat.le_refl _) rfl, List.take_length, Option.map_some, toEnd,
    indexed_advanceBy (Nat.le_refl _)]
  rfl

/-! ## Expressions -/

/-- Behind an operand, a digit is refused whatever numeral it starts. -/
theorem step_ofChar_of_isDigit {outer : List Pending} {lead : Lead} {term : Expr}
    (hd : d.isDigit) :
    (Reading.complete outer lead term).step (.ofChar d) = .error (.atOperator outer.length) := by
  have htoken : Token.ofChar d = .other d := by
    unfold Token.ofChar
    split
    case h_5 => rw [Operator.ofSymbol?_of_isDigit hd, Option.elim_none]
    all_goals exact absurd hd (by decide)
  rw [htoken]
  cases outer <;> rfl

/-- Where reading stops that comes to a result. -/
def stopOf (c : Cursor) : Except Refusal Expr → Except Error Expr × IndexedLine
  | .ok e => (.ok e, c.toEnd.indexed)
  | .error refusal => (.error refusal.error, ⟨c.characters, refusal.position⟩)

theorem stopOf_advanceBy (c : Cursor) (n : Nat) : (c.advanceBy n).stopOf = c.stopOf := by
  funext result
  cases result with
  | ok e => rw [stopOf, stopOf, toEnd_advanceBy]
  | error refusal => rw [stopOf, stopOf, characters_advanceBy]

theorem length_after_readNumber (h : c.after = d :: cs) (hd : d.isDigit) :
    c.readNumber.2.after.length < c.after.length := by
  have hlength := Numeral.length_scan c.after
  have hpos := Numeral.length_text_scan_pos cs hd
  rw [← h] at hpos
  rw [after_readNumber]
  omega

/-- Taking a token from a cursor follows the reading: it is refused where the reading is, or
    the reading goes on behind it. -/
def Takes (c : Cursor) (state : Reading)
    (result : Option (Except Error Reading × IndexedLine)) : Prop :=
  (∃ err n, result = some (.error err, (c.advanceBy n).indexed) ∧
    state.readOn c = .error ⟨err, (c.advanceBy n).position⟩) ∨
  ∃ next n, result = some (.ok next, (c.advanceBy n).indexed) ∧
    (c.advanceBy n).after.length < c.after.length ∧ state.readOn c = next.readOn (c.advanceBy n)

theorem takes_takeCharacter (state : Reading) (h : c.after = d :: cs) (hblank : isBlank d = false)
    (hd : d.isDigit = false) : c.Takes state (some (c.indexed.takeCharacter state)) := by
  have hpeek : c.indexed.peek = d := by rw [peek_indexed, peek_of_after h]
  rw [IndexedLine.takeCharacter, hpeek]
  cases hstep : state.step (.ofChar d) with
  | error err => exact .inl ⟨err, 0, rfl, Reading.readOn_of_error h hblank hd hstep⟩
  | ok next =>
    have hlt : c.advance.after.length < c.after.length := by
      rw [after_advance h, h]
      exact Nat.lt_succ_self _
    rw [advance_indexed]
    exact .inr ⟨next, 1, rfl, hlt, Reading.readOn_of_step h hblank hd hstep⟩

theorem takes_take? (state : Reading) (h : c.after = d :: cs) (hblank : isBlank d = false) :
    c.Takes state (c.indexed.take? state) := by
  have hpeek : c.peek = d := peek_of_after h
  cases hd : d.isDigit with
  | false =>
    cases state with
    | awaiting outer pending =>
      rw [IndexedLine.take?, peek_indexed, hpeek, hd, if_neg Bool.false_ne_true]
      exact takes_takeCharacter _ h hblank hd
    | complete outer lead term => exact takes_takeCharacter _ h hblank hd
  | true =>
    cases state with
    | awaiting outer pending =>
      have hread : (Reading.awaiting outer pending).readOn c = _ := Reading.readOn_of_isDigit h hd
      have hlt := length_after_readNumber h hd
      obtain ⟨result, n, hresult⟩ : ∃ result n, c.readNumber = (result, c.advanceBy n) :=
        ⟨_, _, rfl⟩
      rw [hresult] at hread hlt
      rw [IndexedLine.take?, peek_indexed, hpeek, hd, if_pos rfl, readNumber?_indexed, hresult]
      -- The number is passed, whether or not it has a value.
      cases result with
      | error err => exact .inl ⟨err, n, rfl, hread⟩
      | ok value => exact .inr ⟨_, n, rfl, hlt, hread⟩
    | complete outer lead term =>
      refine .inl ⟨.atOperator outer.length, 0, ?_, Reading.readOn_complete_of_isDigit h hd⟩
      rw [IndexedLine.take?, IndexedLine.takeCharacter, peek_indexed, hpeek,
        step_ofChar_of_isDigit hd]
      rfl

/-- What is read on from a cursor, and where reading stops. -/
theorem read?_indexed {steps : Nat} (state : Reading) (h : c.after.length < steps) :
    c.indexed.read? steps state = some (c.stopOf (state.readOn c)) := by
  induction steps generalizing state c with
  | zero => exact absurd h (Nat.not_lt_zero _)
  | succ steps ih =>
    have hlength : c.skipBlanks.after.length ≤ c.after.length := by
      rw [after_skipBlanks]
      exact (List.dropWhile_suffix _).length_le
    have hblank := c.isBlank_head_skipBlanks
    have hstop : c.skipBlanks.stopOf = c.stopOf := c.stopOf_advanceBy _
    -- Where reading stops does not depend on whether the blanks have been passed.
    rw [← Reading.readOn_skipBlanks, ← hstop, IndexedLine.read?, skipBlanks_indexed,
      atEnd_indexed]
    generalize c.skipBlanks = c at hlength hblank
    cases hafter : c.after with
    | nil =>
      rw [if_pos (by rw [atEnd, hafter]; rfl), Reading.readOn_of_after_eq_nil hafter]
      cases state.finish with
      | ok e =>
        change _ = some (Except.ok e, c.toEnd.indexed)
        rw [toEnd, hafter]
        rfl
      | error err => rfl
    | cons d cs =>
      rw [if_neg (by rw [atEnd, hafter]; exact Bool.false_ne_true)]
      rcases takes_take? state hafter (hblank d (by rw [hafter]; rfl)) with
        ⟨err, n, htake, hread⟩ | ⟨next, n, htake, hlt, hread⟩
      · rw [htake, hread, ← c.stopOf_advanceBy n]
        rfl
      · rw [htake, hread, ← c.stopOf_advanceBy n]
        exact ih next (by omega)

theorem readExpr_indexed (c : Cursor) :
    c.indexed.read? (c.indexed.characters.length + 1) .initial =
      some (c.readExpr.1, c.readExpr.2.indexed) := by
  have hlength : c.indexed.characters.length = c.position + c.after.length := length_characters c
  rw [read?_indexed _ (by omega), Reading.readOn_eq]
  change some (c.stopOf ((Expr.read c.after).mapError (Refusal.shift c.position))) = _
  rw [readExpr]
  cases hread : Expr.read c.after with
  | ok e => rfl
  | error refusal =>
    obtain ⟨p, hp⟩ := Expr.exists_refuses hread
    rw [indexed_advanceBy hp.position_le, Nat.add_comm]
    rfl

end Cursor

end Derivatives
