import Derivatives.Formula
import Derivatives.Proofs.Token

/-!
# Reading from a cursor

Where the lexemes of a text stand only matters to where they are refused, which is shifted
by as much as they are (`Reading.run_shift`). So blanks in front of an expression can be
skipped before it is read as well as while it is read (`Cursor.readExpr_skipBlanks`).

Reading only moves the cursor: the line stays what it was (`Cursor.characters_readExpr`).
-/

namespace Derivatives

open Number

/-! ## Positions -/

/-- A refusal, `k` characters further on. -/
def Refusal.shift (k : Nat) (refusal : Refusal) : Refusal := ⟨refusal.error, refusal.position + k⟩

theorem Reading.refusalPosition_shift (state : Reading) (k : Nat) (l : Lexeme) :
    state.refusalPosition (l.shift k) = state.refusalPosition l + k := by
  obtain ⟨token, start, stop⟩ := l
  cases state <;> cases token <;> rfl

/-- Lexemes that stand further on are read as they are, and refused further on. -/
theorem Reading.run_shift (state : Reading) (length k : Nat) (ls : List Lexeme) :
    state.run (length + k) (ls.map (Lexeme.shift k)) =
      (state.run length ls).mapError (Refusal.shift k) := by
  induction ls generalizing state with
  | nil =>
    rw [List.map_nil, run, run]
    cases state.finish <;> rfl
  | cons l ls ih =>
    have htoken : (l.shift k).token = l.token := rfl
    rw [List.map_cons, run, run, htoken]
    cases state.step l.token with
    | ok next => exact ih next
    | error err =>
      change Except.error (Refusal.mk err (state.refusalPosition (l.shift k))) = _
      rw [refusalPosition_shift]
      rfl

/-- Blanks in front of a text change nothing but where it is refused. -/
theorem Expr.read_blanks_append {bs : List Char} (hbs : ∀ c ∈ bs, isBlank c) (cs : List Char) :
    Expr.read (bs ++ cs) = (Expr.read cs).mapError (Refusal.shift bs.length) := by
  rw [Expr.read, Expr.read, lexemes_blanks_append 0 hbs, lexemes_add, List.length_append,
    Nat.add_comm, Reading.run_shift]

/-! ## Lines -/

/-- A line that does not end with a terminator is as it is. -/
theorem lineCharacters_eq {line : String} (h : ∀ c ∈ line.toList.getLast?, isTerminator c = false) :
    lineCharacters line = line.toList := by
  rw [lineCharacters, List.reverse_eq_iff, List.dropWhile_eq_self_iff]
  intro hpos hterminator
  have hc := h _
    (List.head?_reverse ▸ List.head?_eq_getElem?.trans (List.getElem?_eq_getElem hpos))
  rw [hc] at hterminator
  cases hterminator

/-! ## Cursors -/

namespace Cursor

theorem advanceBy_advanceBy (c : Cursor) (m n : Nat) :
    (c.advanceBy m).advanceBy n = c.advanceBy (m + n) := by
  simp [advanceBy, List.take_add]

theorem toEnd_eq (c : Cursor) : c.toEnd = ⟨c.after.reverse ++ c.before, []⟩ := by
  simp [toEnd, advanceBy]

theorem toEnd_advanceBy (c : Cursor) (n : Nat) : (c.advanceBy n).toEnd = c.toEnd := by
  rw [toEnd_eq, toEnd_eq, advanceBy, ← List.append_assoc, ← List.reverse_append,
    List.take_append_drop]

theorem after_advanceBy {c : Cursor} {w rest : List Char} (h : c.after = w ++ rest) :
    (c.advanceBy w.length).after = rest := by
  change c.after.drop w.length = rest
  rw [h, List.drop_left]

theorem after_skipBlanks (c : Cursor) : c.skipBlanks.after = c.after.dropWhile isBlank :=
  after_advanceBy List.takeWhile_append_dropWhile.symm

/-- Blanks can be skipped before an expression is read. -/
theorem readExpr_skipBlanks (c : Cursor) : c.skipBlanks.readExpr = c.readExpr := by
  have hbs : ∀ b ∈ c.after.takeWhile isBlank, isBlank b := fun b hb => List.mem_takeWhile_imp hb
  have hread := Expr.read_blanks_append hbs (c.after.dropWhile isBlank)
  rw [List.takeWhile_append_dropWhile] at hread
  rw [readExpr, readExpr, after_skipBlanks, hread]
  cases Expr.read (c.after.dropWhile isBlank) with
  | ok e => exact congrArg (Prod.mk _) (c.toEnd_advanceBy _)
  | error refusal =>
    refine congrArg (Prod.mk _) ((c.advanceBy_advanceBy _ _).trans ?_)
    rw [Nat.add_comm]
    rfl

theorem after_readNumber (c : Cursor) : c.readNumber.2.after = (Numeral.scan c.after).2 :=
  after_advanceBy (Numeral.text_scan c.after).symm

theorem position_readNumber (c : Cursor) :
    c.readNumber.2.position = c.position + (Numeral.scan c.after).1.text.length := by
  have hle : (Numeral.scan c.after).1.text.length ≤ c.after.length := by
    rw [← Numeral.length_scan c.after]
    exact Nat.le_add_right _ _
  rw [readNumber, position_advanceBy, Nat.min_eq_left hle]

/-- A number makes one lexeme. -/
theorem lexemes_readNumber {c : Cursor} {d : Char} {cs : List Char} (h : c.after = d :: cs)
    (hd : d.isDigit) : lexemes c.position c.after =
      ⟨.numeral (Numeral.scan c.after).1, c.position, c.readNumber.2.position⟩ ::
        lexemes c.readNumber.2.position c.readNumber.2.after := by
  rw [after_readNumber, position_readNumber, h, lexemes_cons_of_isDigit _ cs hd]

theorem characters_readExpr (c : Cursor) : c.readExpr.2.characters = c.characters := by
  rw [readExpr]
  split <;> exact c.characters_advanceBy _

theorem drop_position (c : Cursor) : c.characters.drop c.position = c.after :=
  List.drop_left' List.length_reverse

theorem length_characters (c : Cursor) :
    c.characters.length = c.position + c.after.length := by
  rw [characters, List.length_append, List.length_reverse]
  rfl

variable {c c' : Cursor} {d : Char} {cs : List Char}

/-- Cursors of the same line are the same if the same is left. -/
theorem eq_of_characters_eq (h : c.characters = c'.characters)
    (hafter : c.after = c'.after) : c = c' := by
  obtain ⟨before, after⟩ := c
  obtain ⟨before', after'⟩ := c'
  obtain rfl : after = after' := hafter
  obtain rfl : before = before' := List.reverse_injective (List.append_cancel_right h)
  rfl

theorem isBlank_head_skipBlanks (c : Cursor) :
    ∀ d ∈ c.skipBlanks.after.head?, isBlank d = false := by
  intro d hd
  rw [after_skipBlanks] at hd
  have := List.head?_dropWhile_not isBlank c.after
  rw [Option.mem_def.1 hd] at this
  simpa using this

theorem skipBlanks_eq_self (h : ∀ d ∈ c.after.head?, isBlank d = false) : c.skipBlanks = c := by
  have htake : c.after.takeWhile isBlank = [] := by
    cases hafter : c.after with
    | nil => rfl
    | cons d cs => rw [List.takeWhile_cons, h d (by rw [hafter]; rfl)]; rfl
  rw [skipBlanks, htake]
  rfl

theorem skipBlanks_skipBlanks (c : Cursor) : c.skipBlanks.skipBlanks = c.skipBlanks :=
  skipBlanks_eq_self c.isBlank_head_skipBlanks

/-- A character that is not the end of line is the next one. -/
theorem after_eq_cons_of_peek (c : Cursor) (h : c.peek = d) (hd : d ≠ endOfLine) :
    c.after = d :: c.advance.after := by
  change _ = d :: c.after.drop 1
  rw [peek] at h
  cases hafter : c.after with
  | nil =>
    rw [hafter] at h
    exact absurd h.symm hd
  | cons d' cs =>
    rw [hafter] at h
    exact congrArg (· :: cs) h

theorem position_advance (h : c.after = d :: cs) : c.advance.position = c.position + 1 := by
  rw [advance, position_advanceBy, h]
  rfl

theorem after_advance (h : c.after = d :: cs) : c.advance.after = cs := by
  change c.after.drop 1 = cs
  rw [h]
  rfl

end Cursor

end Derivatives
