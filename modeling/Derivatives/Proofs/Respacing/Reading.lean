import Derivatives.Proofs.Cursor.Number
import Derivatives.Proofs.Descent.Reading
import Derivatives.Proofs.Respacing

/-!
# Reading respaced lines

A line that is respaced is read next to the line as it was, by two cursors: one `Respacing.Follows`
the other one if it stands in the same place of the text. From there both pass the blanks that come
in addition, and both pass the same blank, character or numeral, in the same state of the reading,
until both are refused, or at the end (`Respacing.Meets.steps`). So what is read agrees
(`Respacing.Follows.agrees`).

Lines agree if no blanks come within the numerals that are read (`Respacing.Keeps`). They stand for
the same formula, or they are refused for the same reason, and the place of a refusal is shifted by
the number of blanks in front of it (`Formula.parse_respace`). A blank in front of the character
that is refused may count or not: behind a number that is out of range, the blanks are not passed.
-/

namespace Derivatives

open Number Grammar

namespace Reading

/-! ## Where reading stops -/

variable {state next : Reading} {outer : List Pending} {pending : Pending} {s t : Cursor}
  {d : Char} {cs : List Char}

/-- The position where what is read on from a cursor stops. -/
def stop (state : Reading) (s : Cursor) : Nat :=
  match state.readOn s with
  | .ok _ => s.characters.length
  | .error refusal => refusal.position

theorem position_le_stop (state : Reading) (s : Cursor) : s.position ≤ state.stop s := by
  rw [stop, readOn_eq]
  cases state.run s.after.length (lexemes 0 s.after) with
  | ok e =>
    change s.position ≤ s.characters.length
    rw [Cursor.characters, List.length_append, List.length_reverse]
    exact Nat.le_add_right _ _
  | error refusal => exact Nat.le_add_left _ _

theorem stop_eq (h : state.readOn s = next.readOn t)
    (hcharacters : t.characters = s.characters) : next.stop t = state.stop s := by
  rw [stop, stop, h, hcharacters]

/-- A number that is read ends where reading stops, at the latest. -/
theorem position_readNumber_le_stop (hafter : s.after = d :: cs) (hd : d.isDigit) :
    s.readNumber.2.position ≤ (awaiting outer pending).stop s := by
  have hread : (awaiting outer pending).readOn s = _ :=
    readOn_of_isDigit hafter hd
  obtain ⟨result, n, hresult⟩ : ∃ result n, s.readNumber = (result, s.advanceBy n) :=
    ⟨_, _, rfl⟩
  rw [hresult] at hread ⊢
  cases result with
  | error err =>
    rw [stop, hread]
  | ok value =>
    rw [← stop_eq hread (s.characters_advanceBy n)]
    exact position_le_stop _ _

/-- Reading a line stops where the cursor does. -/
theorem stop_ofLine (line : String) :
    initial.stop (.ofLine line) = (Cursor.ofLine line).readExpr.2.position := by
  have hread : initial.readOn (.ofLine line) = Expr.read (lineCharacters line) := rfl
  rw [stop, hread]
  cases hexpr : Expr.read (lineCharacters line) with
  | ok e =>
    rw [Cursor.readExpr_of_ok hexpr, Cursor.toEnd, Cursor.position_advanceBy, Nat.min_self]
    exact (Nat.zero_add _).symm
  | error refusal =>
    rw [Cursor.readExpr_of_error hexpr, Cursor.position_of_read_eq_error hexpr]

end Reading

namespace Respacing

variable {r : Respacing} {c d : Char} {cs rest w w' : List Char} {s s' : Cursor} {state : Reading}
  {outer : List Pending} {pending : Pending} {lead : Lead} {term : Expr}

/-! ## Cursors -/

/-- A cursor stands where another one stands in the text as it was. -/
structure Follows (r : Respacing) (s s' : Cursor) : Prop where
  after_eq : s'.after = (r.drop s.position).apply s.after
  position_eq : s'.position = s.position + r.inserted s.position

/-- A cursor stands behind the blanks that come in addition where another one stands. -/
structure Meets (r : Respacing) (s s' : Cursor) : Prop where
  after_eq : s'.after = (r.drop s.position).applyBehind s.after
  position_eq : s'.position = s.position + r.inserted (s.position + 1)

/-- The blanks in front can be passed. -/
theorem Follows.exists_meets (h : r.Follows s s') :
    ∃ t, r.Meets s t ∧ ∀ state : Reading, state.readOn t = state.readOn s' := by
  have hafter := h.after_eq
  rw [apply] at hafter
  refine ⟨s'.advanceBy ((r.drop s.position).blanks 0).val.length, ⟨?_, ?_⟩, fun state => ?_⟩
  · exact Cursor.after_advanceBy hafter
  · have hle : (r.blanks s.position).val.length ≤ s'.after.length := by
      rw [hafter, List.length_append]
      exact Nat.le_add_right _ _
    change (s'.advanceBy (r.blanks s.position).val.length).position = _
    rw [Cursor.position_advanceBy, Nat.min_eq_left hle, h.position_eq, inserted_succ,
      Nat.add_assoc]
  · exact Reading.readOn_advanceBy_blanks hafter ((r.drop s.position).blanks 0).property

/-- Characters without blanks in between are passed. -/
theorem Meets.follows (h : r.Meets s s') (hafter : s.after = w ++ rest)
    (hafter' : s'.after = w' ++ (r.drop (s.position + w.length)).apply rest)
    (hlength : w'.length = w.length)
    (hinserted : r.inserted (s.position + w.length) = r.inserted (s.position + 1)) :
    r.Follows (s.advanceBy w.length) (s'.advanceBy w.length) := by
  have hposition : (s.advanceBy w.length).position = s.position + w.length := by
    rw [Cursor.position_advanceBy, hafter, List.length_append,
      Nat.min_eq_left (Nat.le_add_right _ _)]
  refine ⟨?_, ?_⟩
  · rw [hposition, Cursor.after_advanceBy hafter]
    have hrest := Cursor.after_advanceBy hafter'
    rwa [hlength] at hrest
  · rw [hposition, hinserted, Cursor.position_advanceBy, hafter', List.length_append, hlength,
      Nat.min_eq_left (Nat.le_add_right _ _), h.position_eq]
    omega

/-- The next character. -/
theorem Meets.after_cons (h : r.Meets s s') (hafter : s.after = d :: cs) :
    s'.after = (r.drop s.position).letter d :: (r.drop (s.position + 1)).apply cs := by
  rw [h.after_eq, hafter, applyBehind, drop_drop, apply]

theorem Meets.advance (h : r.Meets s s') (hafter : s.after = d :: cs) :
    r.Follows s.advance s'.advance :=
  have hone : s.after = [d] ++ cs := hafter
  have hone' : s'.after = [(r.drop s.position).letter d] ++ _ := h.after_cons hafter
  h.follows hone hone' rfl rfl

/-- The next numeral, without blanks within it. -/
theorem Meets.readNumber (h : r.Meets s s') (hafter : s.after = d :: cs) (hd : d.isDigit)
    (hr : ∀ i, s.position < i → i < s.position + (Numeral.scan s.after).1.text.length →
      (r.blanks i).val = []) :
    s'.readNumber.1 = s.readNumber.1 ∧ r.Follows s.readNumber.2 s'.readNumber.2 ∧
      s'.readNumber.2 = s'.advanceBy (Numeral.scan s.after).1.text.length := by
  have hpos : 0 < (Numeral.scan s.after).1.text.length := by
    rw [hafter]
    exact Numeral.length_text_scan_pos cs hd
  -- No blank is added within the numeral, and none of its letters changes its case.
  have htext : s'.after = (Numeral.scan s.after).1.text ++
      (r.drop (s.position + (Numeral.scan s.after).1.text.length)).apply
        (Numeral.scan s.after).2 := by
    rw [h.after_eq, ← drop_drop, ← applyBehind_append (List.ne_nil_of_length_pos hpos)
      (fun c hc => ne_of_mem_text (Numeral.wellFormed_scan _) hc)
      (fun i hi hlt => hr (s.position + i) (by omega) (by omega)), Numeral.text_scan]
  have hinserted : r.inserted (s.position + (Numeral.scan s.after).1.text.length) =
      r.inserted (s.position + 1) := by
    obtain ⟨k, hk⟩ : ∃ k, (Numeral.scan s.after).1.text.length = 1 + k :=
      Nat.exists_eq_add_of_le hpos
    rw [hk, ← Nat.add_assoc]
    exact inserted_add k fun i hle hlt => hr i (by omega) (by omega)
  have hscan : Numeral.scan s'.after = ((Numeral.scan s.after).1,
      (r.drop (s.position + (Numeral.scan s.after).1.text.length)).apply
        (Numeral.scan s.after).2) := by
    rw [htext]
    exact scan_text_append_apply s.after
  have hnumber : s'.readNumber = ((Numeral.scan s.after).1.value,
      s'.advanceBy (Numeral.scan s.after).1.text.length) := by
    rw [Cursor.readNumber, hscan]
  rw [hnumber]
  exact ⟨rfl, h.follows (Numeral.text_scan s.after).symm htext rfl hinserted, rfl⟩

/-- What is read in one text agrees with what is read in the other. -/
def Agrees (r : Respacing) (result result' : Except Refusal Expr) : Prop :=
  match result with
  | .ok e => result' = .ok e
  | .error refusal => ∃ position, result' = .error ⟨refusal.error, position⟩ ∧
      (position = refusal.position + r.inserted refusal.position ∨
        position = refusal.position + r.inserted (refusal.position + 1))

/-- Reading agrees from two cursors on, or goes on from two later ones. -/
def Steps (r : Respacing) (state : Reading) (s s' : Cursor) : Prop :=
  r.Agrees (state.readOn s) (state.readOn s') ∨
    ∃ (next : Reading) (n : Nat), 0 < n ∧ r.Follows (s.advanceBy n) (s'.advanceBy n) ∧
      state.readOn s = next.readOn (s.advanceBy n) ∧
      state.readOn s' = next.readOn (s'.advanceBy n) ∧
      lexemes (s.advanceBy n).position (s.advanceBy n).after <:+ lexemes s.position s.after

/-- Both are refused on the spot. -/
theorem Meets.agrees {err : Error} (h : r.Meets s s')
    (hread : state.readOn s = .error ⟨err, s.position⟩)
    (hread' : state.readOn s' = .error ⟨err, s'.position⟩) :
    r.Agrees (state.readOn s) (state.readOn s') := by
  rw [hread, hread']
  exact ⟨_, rfl, .inr h.position_eq⟩

theorem Meets.steps_blank (h : r.Meets s s') (hafter : s.after = d :: cs) (hd : isBlank d) :
    r.Steps state s s' := by
  have hletter := (r.drop s.position).letter_of_ne (c := d)
    (by rcases eq_of_isBlank hd with rfl | rfl <;> decide)
  have hone : s.after = [d] ++ cs := hafter
  have hone' : s'.after = [d] ++ (r.drop (s.position + 1)).apply cs := by
    rw [h.after_cons hafter, hletter]
    rfl
  have hblank : ∀ b ∈ [d], isBlank b := List.forall_mem_singleton.2 hd
  refine .inr ⟨state, 1, Nat.one_pos, h.advance hafter,
    (Reading.readOn_advanceBy_blanks hone hblank).symm,
    (Reading.readOn_advanceBy_blanks hone' hblank).symm, ?_⟩
  have hlexemes : lexemes s.position (d :: cs) = lexemes (s.position + 1) cs :=
    lexemes_blanks_append s.position hblank
  rw [← Cursor.advance, Cursor.position_advance hafter, Cursor.after_advance hafter, hafter,
    hlexemes]

theorem Meets.steps_character (h : r.Meets s s') (hafter : s.after = d :: cs)
    (hblank : isBlank d = false) (hd : d.isDigit = false) : r.Steps state s s' := by
  have hafter' := h.after_cons hafter
  have htoken := (r.drop s.position).ofChar_letter d
  have hblank' : isBlank ((r.drop s.position).letter d) = false :=
    forall_letter (P := fun c => isBlank c = false) rfl rfl hblank
  have hd' : ((r.drop s.position).letter d).isDigit = false :=
    forall_letter (P := fun c => c.isDigit = false) rfl rfl hd
  cases hstep : state.step (.ofChar d) with
  | error err =>
    exact .inl (h.agrees (Reading.readOn_of_error hafter hblank hd hstep)
      (Reading.readOn_of_error hafter' hblank' hd' (htoken ▸ hstep)))
  | ok next =>
    refine .inr ⟨next, 1, Nat.one_pos, h.advance hafter,
      Reading.readOn_of_step hafter hblank hd hstep,
      Reading.readOn_of_step hafter' hblank' hd' (htoken ▸ hstep), ?_⟩
    rw [← Cursor.advance, Cursor.position_advance hafter, Cursor.after_advance hafter, hafter,
      lexemes_cons _ hblank hd]
    exact List.suffix_cons _ _

theorem Meets.steps_numeral (h : r.Meets s s') (hafter : s.after = d :: cs) (hd : d.isDigit)
    (hr : ∀ i, s.position < i → i < s.position + (Numeral.scan s.after).1.text.length →
      (r.blanks i).val = []) : r.Steps (.awaiting outer pending) s s' := by
  have hafter' := h.after_cons hafter
  rw [letter_of_isDigit _ hd] at hafter'
  obtain ⟨n, hn⟩ : ∃ n, n = (Numeral.scan s.after).1.text.length := ⟨_, rfl⟩
  obtain ⟨result, hresult⟩ : ∃ result, s.readNumber = (result, s.advanceBy n) :=
    ⟨_, by rw [hn]; rfl⟩
  obtain ⟨hvalue, hfollows, hstop⟩ := h.readNumber hafter hd hr
  rw [hresult] at hvalue hfollows
  have hresult' : s'.readNumber = (result, s'.advanceBy n) := by
    rw [hn]
    exact Prod.ext hvalue hstop
  rw [hresult'] at hfollows
  have hread : (Reading.awaiting outer pending).readOn s = _ :=
    Reading.readOn_of_isDigit hafter hd
  have hread' : (Reading.awaiting outer pending).readOn s' = _ :=
    Reading.readOn_of_isDigit hafter' hd
  rw [hresult] at hread
  rw [hresult'] at hread'
  -- The value, or that there is none, is the same in both texts.
  cases result with
  | error err =>
    refine .inl ?_
    rw [hread, hread']
    exact ⟨_, rfl, .inl hfollows.position_eq⟩
  | ok value =>
    refine .inr ⟨_, n, ?_, hfollows, hread, hread', ?_⟩
    · rw [hn, hafter]
      exact Numeral.length_text_scan_pos cs hd
    · rw [Cursor.lexemes_readNumber hafter hd, hresult]
      exact List.suffix_cons _ _

theorem Meets.steps_complete (h : r.Meets s s') (hafter : s.after = d :: cs) (hd : d.isDigit) :
    r.Steps (.complete outer lead term) s s' := by
  have hafter' := h.after_cons hafter
  rw [letter_of_isDigit _ hd] at hafter'
  exact .inl (h.agrees (Reading.readOn_complete_of_isDigit hafter hd)
    (Reading.readOn_complete_of_isDigit hafter' hd))

/-- What comes next agrees, or reading goes on. -/
theorem Meets.steps (h : r.Meets s s') (hafter : s.after = d :: cs)
    (hr : r.Keeps (lexemes s.position s.after) (state.stop s)) : r.Steps state s s' := by
  cases hblank : isBlank d with
  | true => exact h.steps_blank hafter hblank
  | false =>
    cases hd : d.isDigit with
    | false => exact h.steps_character hafter hblank hd
    | true =>
      -- Where no operand can come, a digit is refused, and blanks may come in the number.
      cases state with
      | complete outer lead term => exact h.steps_complete hafter hd
      | awaiting outer pending =>
        refine h.steps_numeral hafter hd ?_
        rw [← Cursor.position_readNumber]
        rw [Cursor.lexemes_readNumber hafter hd] at hr
        exact hr _ List.mem_cons_self _ rfl (Reading.position_readNumber_le_stop hafter hd)

/-- What is read in one text agrees with what is read in the other. -/
theorem Follows.agrees (h : r.Follows s s')
    (hr : r.Keeps (lexemes s.position s.after) (state.stop s)) :
    r.Agrees (state.readOn s) (state.readOn s') := by
  induction hlength : s.after.length using Nat.strong_induction_on generalizing state s s' with
  | _ length ih =>
    -- The blanks in front are passed first, so that both cursors see the same.
    obtain ⟨t, ht, hread⟩ := h.exists_meets
    rw [← hread]
    cases hafter : s.after with
    | nil =>
      have hafter' : t.after = [] := by rw [ht.after_eq, hafter]; rfl
      rw [Reading.readOn_of_after_eq_nil hafter, Reading.readOn_of_after_eq_nil hafter']
      cases state.finish with
      | ok e => rfl
      | error err => exact ⟨_, rfl, .inr ht.position_eq⟩
    | cons d cs =>
      rcases ht.steps hafter hr with hagrees | ⟨next, n, hpos, hfollows, hnext, hnext', hsuffix⟩
      · exact hagrees
      · -- What comes later is read as far as before, so its numerals are kept together, too.
        rw [hnext, hnext']
        have hlt : (s.advanceBy n).after.length < length := by
          change (s.after.drop n).length < length
          rw [List.length_drop, hlength]
          rw [hafter] at hlength
          change cs.length + 1 = length at hlength
          omega
        refine ih _ hlt hfollows (fun l hl => ?_) rfl
        rw [Reading.stop_eq hnext (s.characters_advanceBy n)]
        exact hr l (hsuffix.subset hl)

/-! ## Lines -/

/-- A text that does not end with a terminator still does not. -/
theorem isTerminator_getLast_apply (h : ∀ c ∈ cs.getLast?, isTerminator c = false) :
    ∀ c ∈ (r.apply cs).getLast?, isTerminator c = false := by
  induction cs generalizing r with
  | nil =>
    intro c hc
    rw [apply, applyBehind, List.append_nil] at hc
    rcases eq_of_isBlank ((r.blanks 0).property c (List.mem_of_getLast? hc)) with rfl | rfl <;> rfl
  | cons d cs ih =>
    have happly : r.apply (d :: cs) = (r.blanks 0).val ++ r.letter d :: (r.drop 1).apply cs := rfl
    intro c hc
    rw [happly, List.getLast?_append, List.getLast?_cons, Option.some_or] at hc
    -- The last character is that of the rest, or the first one if there is no rest.
    cases hlast : ((r.drop 1).apply cs).getLast? with
    | some e =>
      rw [hlast] at hc
      obtain rfl := Option.some.inj hc
      refine ih (fun c hc => h c ?_) _ hlast
      rw [List.getLast?_cons, hc]
      rfl
    | none =>
      rw [hlast] at hc
      obtain rfl := Option.some.inj hc
      cases cs with
      | nil => exact forall_letter (P := fun c => isTerminator c = false) rfl rfl (h d rfl)
      | cons e cs =>
        rw [List.getLast?_eq_none_iff] at hlast
        exact absurd hlast (List.append_ne_nil_of_right_ne_nil _ (List.cons_ne_nil _ _))

/-- The line that a text is. -/
theorem lineCharacters_ofList (h : ∀ c ∈ cs.getLast?, isTerminator c = false) :
    lineCharacters (String.ofList cs) = cs := by
  rw [lineCharacters_eq (by rwa [String.toList_ofList]), String.toList_ofList]

/-- On lines, what is read agrees. -/
theorem agrees_read (hcs : ∀ c ∈ cs.getLast?, isTerminator c = false)
    (hr : r.Keeps (lexemes 0 cs) (Cursor.ofLine (String.ofList cs)).readExpr.2.position) :
    r.Agrees (Expr.read (lineCharacters (String.ofList cs)))
      (Expr.read (lineCharacters (String.ofList (r.apply cs)))) := by
  have hcharacters := lineCharacters_ofList hcs
  have hcharacters' := lineCharacters_ofList (isTerminator_getLast_apply (r := r) hcs)
  have hfollows : r.Follows (.ofLine (String.ofList cs))
      (.ofLine (String.ofList (r.apply cs))) := by
    refine ⟨?_, rfl⟩
    change lineCharacters _ = (r.drop 0).apply (lineCharacters _)
    rw [hcharacters, hcharacters', r.drop_zero]
  have hkeeps : r.Keeps
      (lexemes (Cursor.ofLine (String.ofList cs)).position (Cursor.ofLine (String.ofList cs)).after)
      (Reading.initial.stop (.ofLine (String.ofList cs))) := by
    rw [Reading.stop_ofLine]
    change r.Keeps (lexemes 0 (lineCharacters _)) _
    rwa [hcharacters]
  exact hfollows.agrees hkeeps

/-- Where what is read on two lines agrees, they stand for the same formula, or are refused for
    the same reason. -/
theorem Agrees.parse {line line' : String}
    (h : r.Agrees (Expr.read (lineCharacters line)) (Expr.read (lineCharacters line'))) :
    Formula.parse line' = Formula.parse line ∧
      ∀ err c, (Cursor.ofLine line).readExpr = (.error err, c) →
        ∃ c', (Cursor.ofLine line').readExpr = (.error err, c') ∧
          (c'.position = c.position + r.inserted c.position ∨
            c'.position = c.position + r.inserted (c.position + 1)) := by
  cases hread : Expr.read (lineCharacters line) with
  | ok e =>
    rw [hread] at h
    have hline : (Cursor.ofLine line).readExpr = (.ok e, _) := Cursor.readExpr_of_ok hread
    have hline' : (Cursor.ofLine line').readExpr = (.ok e, _) := Cursor.readExpr_of_ok h
    rw [Formula.parse, Formula.parse, Expr.parse, Expr.parse, hline, hline']
    exact ⟨rfl, fun err c hc => by cases hc⟩
  | error refusal =>
    rw [hread] at h
    obtain ⟨position, hread', hposition⟩ := h
    have hline := Cursor.readExpr_of_error (c := .ofLine line) hread
    have hline' := Cursor.readExpr_of_error (c := .ofLine line') hread'
    rw [Formula.parse, Formula.parse, Expr.parse, Expr.parse, hline, hline']
    refine ⟨rfl, ?_⟩
    rintro err c ⟨⟩
    refine ⟨_, rfl, ?_⟩
    rwa [Cursor.position_of_read_eq_error hread, Cursor.position_of_read_eq_error hread']

end Respacing

/-- Blanks that come in addition outside of numerals, and the case of the variable, do not matter
    but for the place of a refusal, which is shifted by the number of blanks in front of it. -/
theorem Formula.parse_respace {r : Respacing} {cs : List Char}
    (hcs : ∀ c ∈ cs.getLast?, isTerminator c = false)
    (hr : r.Keeps (lexemes 0 cs) (Cursor.ofLine (String.ofList cs)).readExpr.2.position) :
    Formula.parse (String.ofList (r.apply cs)) = Formula.parse (String.ofList cs) ∧
      ∀ err c, (Cursor.ofLine (String.ofList cs)).readExpr = (.error err, c) →
        ∃ c', (Cursor.ofLine (String.ofList (r.apply cs))).readExpr = (.error err, c') ∧
          (c'.position = c.position + r.inserted c.position ∨
            c'.position = c.position + r.inserted (c.position + 1)) :=
  (Respacing.agrees_read hcs hr).parse

/-- A refusal moves with the blanks in front of it. -/
theorem Formula.parse_respace_extraData :
    Formula.parse "- X* 2e1 )" = Formula.parse "-x*2e1)" ∧
      ∃ c, (Cursor.ofLine "- X* 2e1 )").readExpr = (.error .extraData, c) ∧
        (c.position = 8 ∨ c.position = 9) := by
  let r : Respacing :=
    ⟨fun i => if i = 1 ∨ i = 3 ∨ i = 6 then ⟨[' '], List.forall_mem_singleton.2 rfl⟩ else noBlanks,
      fun i => i = 1⟩
  have hcs : ∀ c ∈ "-x*2e1)".toList.getLast?, isTerminator c = false := by
    rintro c ⟨⟩
    rfl
  have hwithin : ∀ l ∈ lexemes 0 "-x*2e1)".toList, ∀ i, i < l.stop → l.start < i →
      (r.blanks i).val = [] := by
    decide +kernel
  have h := Formula.parse_respace hcs fun l hl _ _ _ i hstart hstop => hwithin l hl i hstop hstart
  have happly : String.ofList (r.apply "-x*2e1)".toList) = "- X* 2e1 )" := by decide +kernel
  rw [happly, String.ofList_toList] at h
  have hread : Expr.read (lineCharacters "-x*2e1)") = .error ⟨.extraData, 6⟩ := by decide +kernel
  obtain ⟨c, hc, hposition⟩ := h.2 _ _ (Cursor.readExpr_of_error (c := .ofLine "-x*2e1)") hread)
  exact ⟨h.1, c, hc, hposition⟩

end Derivatives
