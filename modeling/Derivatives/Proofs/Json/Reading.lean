import Derivatives.Json
import Derivatives.Proofs.Number.Numeral

/-!
# Reading JSON texts

A JSON text is read token by token (`Json.scanToken?`), blanks between the tokens being skipped. In
between, the state of the reading (`Json.Reading`) says what may come next, and which arrays and
objects it stands in, with what has been read of each (`Json.Group`). `Json.read?` gives the value
that a text denotes, if it denotes one.

What is read are the texts that the data format has for the values there are here, i.e. all but the
truth values: a number has no needless zero in front, digits on both sides of its point, and a
finite double; a string may have any escape, a character beyond those of one escape being written
as two (`Json.scanEscape?`), but no control character that is not escaped.
-/

namespace Derivatives.Json

open Number (Numeral)

/-! ## Strings -/

/-- The value of a hexadecimal digit. -/
def hexDigit? (c : Char) : Option Nat :=
  if c.isDigit then some (c.toNat - '0'.toNat)
  else if 'a' ≤ c ∧ c ≤ 'f' then some (c.toNat - 'a'.toNat + 10)
  else if 'A' ≤ c ∧ c ≤ 'F' then some (c.toNat - 'A'.toNat + 10)
  else none

/-- The number that four hexadecimal digits denote, and the rest of the text. -/
def scanUnit? : List Char → Option (Nat × List Char)
  | a :: b :: c :: d :: cs => do
    let digits ← [a, b, c, d].mapM hexDigit?
    return (digits.foldl (fun n digit => 16 * n + digit) 0, cs)
  | _ => none

/-- Whether a number is the first one of two that make a character. -/
def isLeading (unit : Nat) : Bool := 0xD800 ≤ unit && unit < 0xDC00

/-- Whether a number is the second one of two that make a character. -/
def isTrailing (unit : Nat) : Bool := 0xDC00 ≤ unit && unit < 0xE000

/-- The character that a letter behind a backslash stands for. -/
def escaped? : Char → Option Char
  | '"' => some '"'
  | '\\' => some '\\'
  | '/' => some '/'
  | 'b' => some '\x08'
  | 'f' => some '\x0c'
  | 'n' => some '\n'
  | 'r' => some '\r'
  | 't' => some '\t'
  | _ => none

/-- The second one of two numbers that make a character, with an escape of its own, and the rest
    of the text. -/
def scanTrailing? : List Char → Option (Nat × List Char)
  | '\\' :: 'u' :: cs => (scanUnit? cs).filter fun (unit, _) => isTrailing unit
  | _ => none

/-- The character that one number or two denote, and the rest of the text. -/
def scanUnicode? (cs : List Char) : Option (Char × List Char) := do
  let (unit, cs) ← scanUnit? cs
  if isLeading unit then
    let (unit', cs) ← scanTrailing? cs
    return (Char.ofNat (0x10000 + 0x400 * (unit - 0xD800) + (unit' - 0xDC00)), cs)
  else if isTrailing unit then none
  else return (Char.ofNat unit, cs)

/-- The character that stands behind a backslash, and the rest of the text. -/
def scanEscape? : List Char → Option (Char × List Char)
  | 'u' :: cs => scanUnicode? cs
  | c :: cs => (escaped? c).map (·, cs)
  | [] => none

theorem length_scanUnit? {cs rest : List Char} {unit : Nat} (h : scanUnit? cs = some (unit, rest)) :
    rest.length < cs.length := by
  unfold scanUnit? at h
  split at h
  · obtain ⟨digits, -, h⟩ := Option.bind_eq_some_iff.1 h
    obtain ⟨-, rfl⟩ := Prod.mk.inj (Option.some.inj h)
    simp only [List.length_cons]
    omega
  · cases h

theorem length_scanTrailing? {cs rest : List Char} {unit : Nat}
    (h : scanTrailing? cs = some (unit, rest)) : rest.length < cs.length := by
  unfold scanTrailing? at h
  split at h
  · have := length_scanUnit? (Option.filter_eq_some_iff.1 h).1
    simp only [List.length_cons]
    omega
  · cases h

theorem length_scanUnicode? {cs rest : List Char} {c : Char}
    (h : scanUnicode? cs = some (c, rest)) : rest.length < cs.length := by
  obtain ⟨⟨unit, cs'⟩, hunit, h⟩ := Option.bind_eq_some_iff.1 h
  have hlt := length_scanUnit? hunit
  dsimp only at h
  split at h
  · obtain ⟨⟨unit', cs''⟩, hunit', h⟩ := Option.bind_eq_some_iff.1 h
    obtain ⟨-, rfl⟩ := Prod.mk.inj (Option.some.inj h)
    exact Nat.lt_trans (length_scanTrailing? hunit') hlt
  · split at h
    · cases h
    · obtain ⟨-, rfl⟩ := Prod.mk.inj (Option.some.inj h)
      exact hlt

theorem length_scanEscape? {cs rest : List Char} {c : Char} (h : scanEscape? cs = some (c, rest)) :
    rest.length < cs.length := by
  unfold scanEscape? at h
  split at h
  · exact Nat.lt_succ_of_lt (length_scanUnicode? h)
  · obtain ⟨d, -, h⟩ := Option.map_eq_some_iff.1 h
    obtain ⟨-, rfl⟩ := Prod.mk.inj h
    exact Nat.lt_succ_self _
  · cases h

/-- The characters of a string up to the quotation mark at its end, and what comes behind it. -/
def scanString? : List Char → Option (List Char × List Char)
  | [] => none
  | '"' :: cs => some ([], cs)
  | '\\' :: cs =>
    match _ : scanEscape? cs with
    | none => none
    | some (c, rest) => (scanString? rest).map (Prod.map (c :: ·) id)
  | c :: cs => if c.toNat < 32 then none else (scanString? cs).map (Prod.map (c :: ·) id)
termination_by cs => cs.length
decreasing_by
  · exact Nat.lt_succ_of_lt (length_scanEscape? ‹_›)
  · exact Nat.lt_succ_self _

/-- What is left of a text does not change if what has been read of it is made into something
    else. -/
theorem exists_of_map_eq_some {α β : Type} {f : α → β} {result : Option (α × List Char)} {b : β}
    {rest : List Char} (h : result.map (Prod.map f id) = some (b, rest)) :
    ∃ a, result = some (a, rest) := by
  obtain ⟨⟨a, rest'⟩, hresult, h⟩ := Option.map_eq_some_iff.1 h
  obtain ⟨-, rfl⟩ := Prod.mk.inj h
  exact ⟨a, hresult⟩

theorem length_scanString? {cs text rest : List Char} (h : scanString? cs = some (text, rest)) :
    rest.length < cs.length := by
  fun_induction scanString? cs generalizing text with
  | case1 | case3 | case5 => cases h
  | case2 cs =>
    obtain ⟨-, rfl⟩ := Prod.mk.inj (Option.some.inj h)
    exact Nat.lt_succ_self _
  | case4 cs c rest' hescape ih =>
    obtain ⟨text', h⟩ := exists_of_map_eq_some h
    exact Nat.lt_succ_of_lt (Nat.lt_trans (ih h) (length_scanEscape? hescape))
  | case6 c cs hquote hbackslash hlt ih =>
    obtain ⟨text', h⟩ := exists_of_map_eq_some h
    exact Nat.lt_succ_of_lt (ih h)

/-! ## Numbers -/

/-- A numeral as numbers are written: without a needless zero in front, and with digits behind its
    point if there is one. -/
def IsNumber (n : Numeral) : Prop :=
  n.whole ≠ [] ∧ (n.whole.head? = some '0' → n.whole = ['0']) ∧ n.fraction ≠ some []

instance : DecidablePred IsNumber := fun _ => inferInstanceAs (Decidable (_ ∧ _))

/-- The minus sign a text starts with, if it does, and the rest. -/
def scanMinus : List Char → Bool × List Char
  | '-' :: cs => (true, cs)
  | cs => (false, cs)

/-- The number a text starts with, and the rest. -/
def scanNumber? (cs : List Char) : Option (Float × List Char) :=
  let (negative, cs) := scanMinus cs
  let (numeral, rest) := Numeral.scan cs
  if IsNumber numeral ∧ numeral.IsFinite then
    some (Number.ofMagnitude negative numeral.decimal.magnitude, rest)
  else none

theorem length_scanMinus (cs : List Char) : (scanMinus cs).2.length ≤ cs.length := by
  unfold scanMinus
  split
  · exact Nat.le_succ _
  · exact Nat.le_refl _

theorem length_scanNumber? {cs rest : List Char} {x : Float}
    (h : scanNumber? cs = some (x, rest)) : rest.length < cs.length := by
  simp only [scanNumber?] at h
  split at h
  · next hnumber =>
    obtain ⟨-, rfl⟩ := Prod.mk.inj (Option.some.inj h)
    -- There is a digit in front of the point.
    have hpos := List.length_pos_of_ne_nil hnumber.1.1
    have hscan := Numeral.length_scan (scanMinus cs).2
    have hminus := length_scanMinus cs
    rw [Numeral.text, List.length_append, List.length_append] at hscan
    omega
  · cases h

/-! ## Tokens -/

/-- A unit of a JSON text. -/
inductive Token
  /-- A value that is not made of others: `null`, a number or a string. -/
  | scalar (value : Json)
  | leftBracket
  | rightBracket
  | leftBrace
  | rightBrace
  | comma
  | colon

/-- Whether a character can stand between tokens. -/
def isSpace (c : Char) : Bool := c = ' ' || c = '\t' || c = '\n' || c = '\r'

/-- The token a text starts with, and the rest. -/
def scanToken? : List Char → Option (Token × List Char)
  | '[' :: cs => some (.leftBracket, cs)
  | ']' :: cs => some (.rightBracket, cs)
  | '\x7b' :: cs => some (.leftBrace, cs)
  | '\x7d' :: cs => some (.rightBrace, cs)
  | ',' :: cs => some (.comma, cs)
  | ':' :: cs => some (.colon, cs)
  | '"' :: cs => (scanString? cs).map (Prod.map (fun text => .scalar (.string (.ofList text))) id)
  | 'n' :: 'u' :: 'l' :: 'l' :: cs => some (.scalar .null, cs)
  | cs => (scanNumber? cs).map (Prod.map (fun x => .scalar (.number x)) id)

theorem length_scanToken? {cs rest : List Char} {token : Token}
    (h : scanToken? cs = some (token, rest)) : rest.length < cs.length := by
  unfold scanToken? at h
  split at h
  case h_7 =>
    obtain ⟨text, h⟩ := exists_of_map_eq_some h
    exact Nat.lt_succ_of_lt (length_scanString? h)
  case h_9 =>
    obtain ⟨x, h⟩ := exists_of_map_eq_some h
    exact length_scanNumber? h
  all_goals
    obtain ⟨-, rfl⟩ := Prod.mk.inj (Option.some.inj h)
    simp only [List.length_cons]
    omega

/-! ## Values -/

/-- An array or an object of which a part has been read. -/
inductive Group
  /-- An array, with the items before the one that comes next. -/
  | array (items : List Json)
  /-- An object, with the members before the one whose value comes next, and its name. -/
  | object (members : List (String × Json)) (name : String)

/-- The state of the reading of a value, inside of the groups `outer`, the innermost one first. -/
inductive Reading
  /-- A value has to come next. -/
  | value (outer : List Group)
  /-- The first item of an array has to come next, or its end. -/
  | firstItem (outer : List Group)
  /-- The name of the first member of an object has to come next, or its end. -/
  | firstMember (outer : List Group)
  /-- The name of a member of an object has to come next, behind others. -/
  | member (outer : List Group) (members : List (String × Json))
  /-- The name of a member has come; its value has to come next, behind a colon. -/
  | named (outer : List Group) (members : List (String × Json)) (name : String)
  /-- A value has come. -/
  | complete (outer : List Group) (value : Json)

namespace Reading

/-- The state after the first token of a value. -/
def start (outer : List Group) : Token → Option Reading
  | .scalar v => some (complete outer v)
  | .leftBracket => some (firstItem outer)
  | .leftBrace => some (firstMember outer)
  | _ => none

/-- The state after the next token, if that token can come next. -/
def step : Reading → Token → Option Reading
  | value outer, token => start outer token
  | firstItem outer, .rightBracket => some (complete outer (.array []))
  | firstItem outer, token => start (.array [] :: outer) token
  | firstMember outer, .rightBrace => some (complete outer (.object []))
  | firstMember outer, .scalar (.string name) => some (named outer [] name)
  | member outer members, .scalar (.string name) => some (named outer members name)
  | named outer members name, .colon => some (value (.object members name :: outer))
  | complete (.array items :: outer) v, .comma => some (value (.array (items ++ [v]) :: outer))
  | complete (.array items :: outer) v, .rightBracket =>
    some (complete outer (.array (items ++ [v])))
  | complete (.object members name :: outer) v, .comma =>
    some (member outer (members ++ [(name, v)]))
  | complete (.object members name :: outer) v, .rightBrace =>
    some (complete outer (.object (members ++ [(name, v)])))
  | _, _ => none

/-- The value read, if the text can end here. -/
def finish : Reading → Option Json
  | complete [] v => some v
  | _ => none

/-- Reads the rest of a text. -/
def run (state : Reading) (cs : List Char) : Option Json :=
  if cs.dropWhile isSpace = [] then state.finish
  else
    match _ : scanToken? (cs.dropWhile isSpace) with
    | none => none
    | some (token, rest) =>
      match state.step token with
      | none => none
      | some next => next.run rest
termination_by cs.length
decreasing_by
  exact Nat.lt_of_lt_of_le (length_scanToken? ‹_›) (List.dropWhile_suffix isSpace).length_le

end Reading

/-- The value that a text denotes. -/
def read? (text : String) : Option Json := (Reading.value []).run text.toList

example : (read? "[1.50, \"\\u00e9\\ud83d\\ude00\"] ").map render = some "[1.5,\"é😀\"]" := by
  decide +kernel

example : (read? "[1.5,]").isNone := by decide +kernel

end Derivatives.Json
