import Derivatives.Proofs.Cursor.Indexed

/-!
# Sequences of operations on a cursor

Anything can be asked of a cursor at any time, in any order (`CursorOperation`); reading an
expression is one of the operations, whether or not it succeeds. Each of them passes some of the
characters that are left (`Cursor.exists_perform_eq`). So the characters stay what they are, the
cursor never moves back, and what the operations pass makes up what was left
(`Cursor.run?_indexed`). By index, they come to the same, and no index is ever out of range
(`IndexedLine.run?_ofLine`).
-/

namespace Derivatives

/-! ## Operations -/

/-- What can be asked of a cursor. -/
inductive CursorOperation
  | peek
  | advance
  | skipBlanks
  | atEnd
  | readNumber
  | toEnd
  | readExpr
  deriving DecidableEq, Repr

/-- What a cursor answers. -/
inductive CursorAnswer
  | nothing
  | character (c : Char)
  | truth (b : Bool)
  | number (result : Except Error Float)
  | text (text : String)
  | formula (result : Except Error Formula)

/-- An operation on a cursor. -/
def Cursor.perform (c : Cursor) : CursorOperation → CursorAnswer × Cursor
  | .peek => (.character c.peek, c)
  | .advance => (.character c.peek, c.advance)
  | .skipBlanks => (.nothing, c.skipBlanks)
  | .atEnd => (.truth c.atEnd, c)
  | .readNumber => (.number c.readNumber.1, c.readNumber.2)
  | .toEnd => (.text c.rest, c.toEnd)
  | .readExpr => (.formula (c.readExpr.1.map Formula.ofExpr), c.readExpr.2)

/-- An operation on a line with an index, if no index in it is out of range. -/
def IndexedLine.perform? (s : IndexedLine) :
    CursorOperation → Option (CursorAnswer × IndexedLine)
  | .peek => some (.character s.peek, s)
  | .advance => some (.character s.peek, s.advance)
  | .skipBlanks => some (.nothing, s.skipBlanks)
  | .atEnd => some (.truth s.atEnd, s)
  | .readNumber => s.readNumber?.map fun r => (.number r.1, r.2)
  | .toEnd => s.toEnd?.map fun r => (.text r.1, r.2)
  | .readExpr => (s.read? (s.characters.length + 1) .initial).map fun r =>
      (.formula (r.1.map Formula.ofExpr), r.2)

namespace Cursor

/-! ## Sequences of operations -/

/-- On a line with an index, an operation comes to the same. -/
theorem perform?_indexed (c : Cursor) (operation : CursorOperation) :
    c.indexed.perform? operation =
      some ((c.perform operation).1, (c.perform operation).2.indexed) := by
  cases operation with
  | peek => rw [IndexedLine.perform?, peek_indexed, perform]
  | advance => rw [IndexedLine.perform?, peek_indexed, advance_indexed, perform]
  | skipBlanks => rw [IndexedLine.perform?, skipBlanks_indexed, perform]
  | atEnd => rw [IndexedLine.perform?, atEnd_indexed, perform]
  | readNumber => rw [IndexedLine.perform?, readNumber?_indexed, perform, Option.map_some]
  | toEnd => rw [IndexedLine.perform?, toEnd?_indexed, perform, Option.map_some]
  | readExpr => rw [IndexedLine.perform?, readExpr_indexed, perform, Option.map_some]

theorem exists_advanceBy_eq (c : Cursor) (n : Nat) :
    ∃ m ≤ c.after.length, c.advanceBy n = c.advanceBy m := by
  refine ⟨min n c.after.length, Nat.min_le_right _ _, ?_⟩
  rw [advanceBy, advanceBy, List.take_eq_take_min, List.drop_eq_drop_min]

/-- An operation passes some of the characters that are left. -/
theorem exists_perform_eq (c : Cursor) (operation : CursorOperation) :
    ∃ n ≤ c.after.length, (c.perform operation).2 = c.advanceBy n := by
  cases operation with
  | peek | atEnd => exact ⟨0, Nat.zero_le _, rfl⟩
  | advance | skipBlanks | readNumber | toEnd => exact c.exists_advanceBy_eq _
  | readExpr =>
    rw [perform, readExpr]
    split <;> exact c.exists_advanceBy_eq _

/-- Operations one after another. -/
def run (c : Cursor) : List CursorOperation → List CursorAnswer × Cursor
  | [] => ([], c)
  | operation :: operations =>
    let (answer, c) := c.perform operation
    let (answers, c) := c.run operations
    (answer :: answers, c)

end Cursor

/-- What comes of an operation: its answer, and the characters that it has passed. -/
structure Passage where
  /-- The answer. -/
  answer : CursorAnswer
  /-- The characters. -/
  piece : List Char

namespace IndexedLine

/-- Operations one after another, with what each of them passes cut out of the line, if no index
    is out of range and none goes back. -/
def run? (s : IndexedLine) : List CursorOperation → Option (List Passage × IndexedLine)
  | [] => some ([], s)
  | operation :: operations => do
    let (answer, next) ← s.perform? operation
    let piece ← next.slice? s.index next.index
    let (passages, last) ← next.run? operations
    return (⟨answer, piece⟩ :: passages, last)

end IndexedLine

namespace Cursor

/-- On a line with an index, operations come to the same, and what they pass makes up what was
    left. -/
theorem run?_indexed (c : Cursor) (operations : List CursorOperation) : ∃ passages,
    c.indexed.run? operations = some (passages, (c.run operations).2.indexed) ∧
      passages.map Passage.answer = (c.run operations).1 ∧
      (c.run operations).2.characters = c.characters ∧
      passages.flatMap Passage.piece ++ (c.run operations).2.after = c.after := by
  induction operations generalizing c with
  | nil => exact ⟨[], rfl, rfl, rfl, rfl⟩
  | cons operation operations ih =>
    obtain ⟨n, hle, hperform⟩ := c.exists_perform_eq operation
    obtain ⟨passages, hrun, hanswers, hcharacters, hpieces⟩ := ih (c.perform operation).2
    have hpiece : (c.perform operation).2.indexed.slice? c.indexed.index
        (c.perform operation).2.indexed.index = some (c.after.take n) := by
      rw [hperform, index_indexed_advanceBy hle]
      exact slice?_indexed hle (c.characters_advanceBy n)
    refine ⟨⟨(c.perform operation).1, c.after.take n⟩ :: passages, ?_, ?_, ?_, ?_⟩
    · rw [IndexedLine.run?, perform?_indexed, Option.bind_eq_bind, Option.bind_some]
      change Option.bind (IndexedLine.slice? _ _ _) _ = _
      rw [hpiece, Option.bind_some, hrun]
      rfl
    · rw [List.map_cons, hanswers]
      rfl
    · refine hcharacters.trans ?_
      rw [hperform, characters_advanceBy]
    · change c.after.take n ++ passages.flatMap Passage.piece ++ _ = _
      rw [List.append_assoc]
      refine (congrArg _ hpieces).trans ?_
      rw [hperform]
      exact List.take_append_drop n c.after

/-- Any operation succeeds on a line with an index, which stays within it and does not go back;
    the one that goes to the end gives what is left. -/
theorem exists_perform?_indexed (c : Cursor) (operation : CursorOperation) :
    ∃ answer next, c.indexed.perform? operation = some (answer, next) ∧
      next.characters = c.characters ∧ c.position ≤ next.index ∧
      next.index ≤ c.characters.length ∧
      (operation = .toEnd → answer = .text (String.ofList (c.characters.drop c.position)) ∧
        next.index = c.characters.length) := by
  obtain ⟨n, hle, hperform⟩ := c.exists_perform_eq operation
  have hlength := c.length_characters
  have hindex : (c.perform operation).2.indexed.index = c.position + n := by
    rw [hperform, index_indexed_advanceBy hle]
    rfl
  refine ⟨_, _, c.perform?_indexed operation, ?_, ?_, ?_, ?_⟩
  · rw [hperform]
    exact c.characters_advanceBy n
  · omega
  · omega
  · rintro rfl
    rw [c.drop_position]
    exact ⟨rfl, (index_indexed_advanceBy (Nat.le_refl _)).trans hlength.symm⟩

end Cursor

namespace IndexedLine

/-- What is seen next is the character at the index, if there is one, and else the end of line. -/
theorem peek_spec (s : IndexedLine) :
    (s.atEnd = false ↔ s.characters[s.index]? = some s.peek) ∧
      (s.atEnd = true → s.peek = endOfLine) := by
  rw [atEnd, peek, decide_eq_false_iff_not, decide_eq_true_iff]
  by_cases hle : s.characters.length ≤ s.index
  · rw [List.getElem?_eq_none hle]
    exact ⟨iff_of_false (fun h => h hle) (Option.some_ne_none _).symm, fun _ => rfl⟩
  · rw [List.getElem?_eq_getElem (Nat.not_le.1 hle)]
    exact ⟨iff_of_true hle rfl, fun h => absurd h hle⟩

/-- Whatever is done with a line one operation after another, no index is out of range or goes
    back, the characters stay what they are, and what is passed makes up the line together with
    what is left. -/
theorem run?_ofLine (line : String) (operations : List CursorOperation) :
    ∃ passages s, (ofLine line).run? operations = some (passages, s) ∧
      passages.map Passage.answer = ((Cursor.ofLine line).run operations).1 ∧
      s.characters = lineCharacters line ∧ s.index ≤ s.characters.length ∧
      passages.flatMap Passage.piece ++ s.characters.drop s.index = lineCharacters line ∧
      (s.atEnd = false ↔ s.characters[s.index]? = some s.peek) ∧
      (s.atEnd = true → s.peek = endOfLine) ∧
      (endOfLine ∉ s.characters → (s.atEnd = false ↔ s.peek ∈ s.characters)) ∧
      ∀ operation, ∃ answer next, s.perform? operation = some (answer, next) ∧
        next.characters = s.characters ∧ s.index ≤ next.index ∧
        next.index ≤ s.characters.length ∧
        (operation = .toEnd → answer = .text (String.ofList (s.characters.drop s.index)) ∧
          next.index = s.characters.length) := by
  obtain ⟨passages, hrun, hanswers, hcharacters, hpieces⟩ :=
    (Cursor.ofLine line).run?_indexed operations
  obtain ⟨c, hc⟩ : ∃ c, c = ((Cursor.ofLine line).run operations).2 := ⟨_, rfl⟩
  rw [← hc] at hrun hcharacters hpieces
  obtain ⟨hpeek, hend⟩ := c.indexed.peek_spec
  have hlength := c.length_characters
  refine ⟨passages, c.indexed, hrun, hanswers, hcharacters, ?_, ?_, hpeek, hend, fun hline => ?_,
    c.exists_perform?_indexed⟩
  · change c.position ≤ c.characters.length
    omega
  · change _ ++ c.characters.drop c.position = _
    rw [c.drop_position, hpieces]
    rfl
  · refine ⟨fun h => List.mem_of_getElem? (hpeek.1 h), fun hmem => ?_⟩
    rw [← Bool.not_eq_true]
    exact fun h => hline (hend h ▸ hmem)

end IndexedLine

end Derivatives
