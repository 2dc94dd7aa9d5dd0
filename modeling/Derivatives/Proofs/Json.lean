import Derivatives.Proofs.Json.Number

/-!
# JSON texts read back

What the text of a value reads back as is the value, but for what is no finite number, of which
`null` is written (`Json.shown`). A string reads back character by character, as each is escaped
by itself (`scanString?_escape_append`). The text of a value, wherever a value can come next,
leads to where that value has come, whatever comes behind it
(`Reading.run_characters_append`); so do the items of an array and the members of an object, one
by one. So the whole text denotes the value shown (`read?_render`).

No text has a control character in it (`noControl_characters`).
-/

namespace Derivatives.Json

open Number (Numeral magnitude infinite)

/-- What is shown of a double: nothing, if it is no finite number. -/
def ofDouble (x : Float) : Json := if x.isFinite then number x else null

mutual

/-- What is shown of a value: all, but for doubles that are no finite numbers. -/
def shown : Json → Json
  | null => null
  | number x => ofDouble x
  | string text => string text
  | array items => array (shownItems items)
  | object members => object (shownMembers members)

/-- What is shown of the items of an array. -/
def shownItems : List Json → List Json
  | [] => []
  | item :: items => item.shown :: shownItems items

/-- What is shown of the members of an object. -/
def shownMembers : List (String × Json) → List (String × Json)
  | [] => []
  | (name, value) :: members => (name, value.shown) :: shownMembers members

end

theorem shownItems_eq_map (items : List Json) : shownItems items = items.map shown := by
  induction items with
  | nil => rfl
  | cons item items ih => rw [shownItems, ih, List.map_cons]

theorem shownMembers_eq_map (members : List (String × Json)) :
    shownMembers members = members.map (Prod.map id shown) := by
  induction members with
  | nil => rfl
  | cons member members ih =>
    rw [shownMembers, ih, List.map_cons]
    rfl

/-! ## Texts of more than one value -/

theorem itemsText_cons_cons (item item' : Json) (items : List Json) :
    itemsText (item :: item' :: items) = item.characters ++ ',' :: itemsText (item' :: items) := by
  rw [itemsText]
  exact List.cons_ne_nil _ _

theorem membersText_cons_cons (name : String) (v : Json) (member : String × Json)
    (members : List (String × Json)) :
    membersText ((name, v) :: member :: members) =
      quote name ++ ':' :: v.characters ++ ',' :: membersText (member :: members) := by
  rw [membersText]
  exact List.cons_ne_nil _ _

/-! ## Strings -/

variable {rest : List Char}

theorem scanString?_of_scanEscape? {cs : List Char} {c : Char}
    (h : scanEscape? cs = some (c, rest)) :
    scanString? ('\\' :: cs) = (scanString? rest).map (Prod.map (c :: ·) id) := by
  rw [scanString?]
  split
  · next hnone => rw [hnone] at h; cases h
  · next c' rest' hsome =>
    rw [hsome] at h
    obtain ⟨rfl, rfl⟩ := Prod.mk.inj (Option.some.inj h)
    rfl

theorem scanUnit?_of_lt {n : Nat} (hn : n < 32) (cs : List Char) :
    scanUnit? ('0' :: '0' :: Nat.digitChar (n / 16) :: Nat.digitChar (n % 16) :: cs) =
      some (n, cs) := by
  have hdigits : ∀ n < 32,
      ['0', '0', Nat.digitChar (n / 16), Nat.digitChar (n % 16)].mapM hexDigit? =
        some [0, 0, n / 16, n % 16] := by decide
  have hvalue : [0, 0, n / 16, n % 16].foldl (fun n digit => 16 * n + digit) 0 = n := by
    change 16 * (16 * 0 + n / 16) + n % 16 = n
    omega
  rw [scanUnit?, hdigits n hn, Option.bind_eq_bind, Option.bind_some, hvalue]
  rfl

/-- A control character is read from its number. -/
theorem scanEscape?_control {c : Char} (hc : c.toNat < 32) (cs : List Char) :
    scanEscape? ('u' :: '0' :: '0' :: Nat.digitChar (c.toNat / 16) ::
      Nat.digitChar (c.toNat % 16) :: cs) = some (c, cs) := by
  have hleading : isLeading c.toNat = false := by
    simp only [isLeading, Bool.and_eq_false_imp, decide_eq_true_eq, decide_eq_false_iff_not]
    omega
  have htrailing : isTrailing c.toNat = false := by
    simp only [isTrailing, Bool.and_eq_false_imp, decide_eq_true_eq, decide_eq_false_iff_not]
    omega
  rw [scanEscape?, scanUnicode?, scanUnit?_of_lt hc, Option.bind_eq_bind, Option.bind_some]
  simp only [hleading, htrailing, Bool.false_eq_true, if_false, Char.ofNat_toNat]
  rfl

/-- A character of a string is read as itself, however it is written. -/
theorem scanString?_escape_append (c : Char) (cs : List Char) :
    scanString? (escape c ++ cs) = (scanString? cs).map (Prod.map (c :: ·) id) := by
  unfold escape
  split_ifs with hquote hbackslash _ _ _ _ _ hcontrol
  iterate 7
    -- There is an escape for this very character.
    · subst c
      exact scanString?_of_scanEscape? rfl
  · exact scanString?_of_scanEscape? (scanEscape?_control hcontrol cs)
  · rw [List.singleton_append, scanString?, if_neg hcontrol]
    · exact hquote
    · exact hbackslash

theorem scanString?_flatMap_escape_append (text rest : List Char) :
    scanString? (text.flatMap escape ++ '"' :: rest) = some (text, rest) := by
  induction text with
  | nil => rw [List.flatMap_nil, List.nil_append, scanString?]
  | cons c text ih =>
    rw [List.flatMap_cons, List.append_assoc, scanString?_escape_append, ih]
    rfl

/-! ## Tokens -/

theorem scanToken?_quote_append (text : String) (rest : List Char) :
    scanToken? (quote text ++ rest) = some (.scalar (.string text), rest) := by
  rw [quote, List.append_assoc, List.cons_append, scanToken?, List.singleton_append,
    scanString?_flatMap_escape_append, Option.map_some, Prod.map, String.ofList_toList]
  rfl

/-- A number starts with a digit, or with a minus sign. -/
theorem isDigit_of_scanNumber? {c : Char} {cs : List Char} {x : Float}
    (h : scanNumber? (c :: cs) = some (x, rest)) : c.isDigit ∨ c = '-' := by
  by_contra hne
  obtain ⟨hdigit, hminus⟩ := not_or.1 hne
  have hscan : scanMinus (c :: cs) = (false, c :: cs) := by
    unfold scanMinus
    split
    · next heq => exact absurd (List.cons.inj heq).1 hminus
    · rfl
  have hwhole : (Numeral.scan (c :: cs)).1.whole = [] := List.takeWhile_cons_of_neg hdigit
  simp only [scanNumber?, hscan] at h
  split_ifs at h with hnumber
  exact hnumber.1.1 hwhole

/-- No token starts with a blank. -/
theorem isSpace_of_scanToken? {c : Char} {cs : List Char} {token : Token}
    (h : scanToken? (c :: cs) = some (token, rest)) : isSpace c = false := by
  unfold scanToken? at h
  split at h
  case h_9 =>
    obtain ⟨x, hnumber⟩ := exists_of_map_eq_some h
    rcases isDigit_of_scanNumber? hnumber with hdigit | rfl
    · rw [Bool.eq_false_iff]
      intro hspace
      simp only [isSpace, Bool.or_eq_true, decide_eq_true_eq] at hspace
      rcases hspace with ((rfl | rfl) | rfl) | rfl <;> exact absurd hdigit (by decide)
    · rfl
  all_goals
    obtain ⟨rfl, -⟩ := List.cons.inj ‹c :: cs = _›
    rfl

/-- A number is the token that it is, as none of the others starts with a digit or a minus
    sign. -/
theorem scanToken?_of_scanNumber? {cs : List Char} {x : Float}
    (h : scanNumber? cs = some (x, rest)) :
    scanToken? cs = some (.scalar (.number x), rest) := by
  unfold scanToken?
  split
  case h_9 => rw [h]; rfl
  all_goals exact absurd (isDigit_of_scanNumber? h) (by decide)

/-! ## Values -/

namespace Reading

/-- A step of the reading. -/
theorem run_of_scanToken? {state next : Reading} {cs : List Char} {token : Token}
    (h : scanToken? cs = some (token, rest)) (hstep : state.step token = some next) :
    state.run cs = next.run rest := by
  cases cs with
  | nil => cases h
  | cons c cs =>
    have hspace : (c :: cs).dropWhile isSpace = c :: cs :=
      List.dropWhile_cons_of_neg (by rw [isSpace_of_scanToken? h]; exact Bool.false_ne_true)
    rw [run, hspace, if_neg (List.cons_ne_nil c cs)]
    split
    · next hnone =>
      rw [hnone] at h
      cases h
    · next token' rest' hsome =>
      rw [hsome] at h
      obtain ⟨rfl, rfl⟩ := Prod.mk.inj (Option.some.inj h)
      rw [hstep]

theorem run_nil (state : Reading) : state.run [] = state.finish := by
  rw [run]
  exact if_pos rfl

/-- A value can come next, inside of the groups `outer`. -/
def AwaitsValue (state : Reading) (outer : List Group) : Prop :=
  ∀ token, token ≠ .rightBracket → state.step token = start outer token

/-- The name of a member can come next, behind others. -/
def AwaitsName (state : Reading) (outer : List Group) (members : List (String × Json)) : Prop :=
  ∀ name, state.step (.scalar (.string name)) = some (named outer members name)

theorem awaitsValue_value (outer : List Group) : (value outer).AwaitsValue outer :=
  fun _ _ => rfl

theorem awaitsValue_firstItem (outer : List Group) :
    (firstItem outer).AwaitsValue (.array [] :: outer) := by
  intro token htoken
  cases token with
  | rightBracket => exact absurd rfl htoken
  | scalar | leftBracket | leftBrace | rightBrace | comma | colon => rfl

theorem awaitsName_firstMember (outer : List Group) : (firstMember outer).AwaitsName outer [] :=
  fun _ => rfl

theorem awaitsName_member (outer : List Group) (members : List (String × Json)) :
    (member outer members).AwaitsName outer members :=
  fun _ => rfl

variable {state : Reading} {outer : List Group}

/-- A value of one token has come. -/
theorem run_scalar {cs : List Char} {v : Json} (hstate : state.AwaitsValue outer)
    (h : scanToken? cs = some (.scalar v, rest)) : state.run cs = (complete outer v).run rest :=
  run_of_scanToken? h (hstate _ Token.noConfusion)

/-- A name has come, and the colon behind it. -/
theorem run_name {members : List (String × Json)} (hstate : state.AwaitsName outer members)
    (name : String) (rest : List Char) :
    state.run (quote name ++ ':' :: rest) = (value (.object members name :: outer)).run rest :=
  (run_of_scanToken? (scanToken?_quote_append name _) (hstate name)).trans
    (run_of_scanToken? rfl rfl)

mutual

/-- The text of a value leads to where the value has come, whatever comes behind it that does not
    go on with a number. -/
theorem run_characters_append (json : Json) {state : Reading} {outer : List Group}
    {rest : List Char} (hstate : state.AwaitsValue outer) (hrest : Numeral.Stops rest) :
    state.run (json.characters ++ rest) = (complete outer json.shown).run rest := by
  cases json with
  | null => exact run_scalar hstate rfl
  | number x =>
    rw [characters, shown, ofDouble]
    split_ifs with hx
    · exact run_scalar hstate (scanToken?_of_scanNumber?
        (scanNumber?_numberText_append (Number.isFinite_iff.1 hx) hrest))
    · -- What is not finite is written as null.
      rw [numberText_of_infinite_le (Nat.not_lt.1 (mt Number.isFinite_iff.2 hx))]
      exact run_scalar hstate rfl
  | string text =>
    rw [characters, shown]
    exact run_scalar hstate (scanToken?_quote_append text rest)
  | array items =>
    rw [characters, List.cons_append, List.cons_append, List.append_assoc, List.singleton_append,
      shown]
    have hbracket : state.run ('[' :: (itemsText items ++ ']' :: rest)) =
        (firstItem outer).run (itemsText items ++ ']' :: rest) :=
      run_of_scanToken? rfl (hstate _ Token.noConfusion)
    rw [hbracket]
    cases items with
    | nil => exact run_of_scanToken? rfl rfl
    | cons item items =>
      exact run_itemsText_append (item :: items) (List.cons_ne_nil _ _)
        (awaitsValue_firstItem outer)
  | object members =>
    rw [characters, List.cons_append, List.cons_append, List.append_assoc, List.singleton_append,
      shown]
    have hbrace : state.run ('\x7b' :: (membersText members ++ '\x7d' :: rest)) =
        (firstMember outer).run (membersText members ++ '\x7d' :: rest) :=
      run_of_scanToken? rfl (hstate _ Token.noConfusion)
    rw [hbrace]
    cases members with
    | nil => exact run_of_scanToken? rfl rfl
    | cons member members =>
      exact run_membersText_append (member :: members) (List.cons_ne_nil _ _)
        (awaitsName_firstMember outer)

/-- The items of an array, behind others, lead to where the array has come. -/
theorem run_itemsText_append (items : List Json) (hitems : items ≠ []) {state : Reading}
    {outer : List Group} {done : List Json} {rest : List Char}
    (hstate : state.AwaitsValue (.array done :: outer)) :
    state.run (itemsText items ++ ']' :: rest) =
      (complete outer (.array (done ++ shownItems items))).run rest := by
  match items with
  | [item] =>
    rw [itemsText, run_characters_append item hstate (Numeral.stops_cons (by decide))]
    exact run_of_scanToken? rfl rfl
  | item :: item' :: items =>
    rw [itemsText_cons_cons, List.append_assoc, List.cons_append,
      run_characters_append item hstate (Numeral.stops_cons (by decide)), shownItems,
      List.append_cons done]
    exact (run_of_scanToken? rfl rfl).trans
      (run_itemsText_append (item' :: items) (List.cons_ne_nil _ _) (awaitsValue_value _))

/-- The members of an object, behind others, lead to where the object has come. -/
theorem run_membersText_append (members : List (String × Json)) (hmembers : members ≠ [])
    {state : Reading} {outer : List Group} {done : List (String × Json)} {rest : List Char}
    (hstate : state.AwaitsName outer done) :
    state.run (membersText members ++ '\x7d' :: rest) =
      (complete outer (.object (done ++ shownMembers members))).run rest := by
  match members with
  | [(name, v)] =>
    rw [membersText, List.append_assoc, List.cons_append, run_name hstate,
      run_characters_append v (awaitsValue_value _) (Numeral.stops_cons (by decide))]
    exact run_of_scanToken? rfl rfl
  | (name, v) :: next :: members =>
    rw [membersText_cons_cons, List.append_assoc, List.append_assoc, List.cons_append,
      List.cons_append, run_name hstate,
      run_characters_append v (awaitsValue_value _) (Numeral.stops_cons (by decide)),
      shownMembers, List.append_cons done]
    exact (run_of_scanToken? rfl rfl).trans
      (run_membersText_append (next :: members) (List.cons_ne_nil _ _) (awaitsName_member _ _))

end

end Reading

/-- What the text of a value denotes is what is shown of the value. -/
theorem read?_render (json : Json) : read? json.render = some json.shown := by
  rw [read?, render, String.toList_ofList, ← List.append_nil json.characters,
    Reading.run_characters_append json (Reading.awaitsValue_value []) Numeral.stops_nil,
    Reading.run_nil]
  rfl

/-! ## No control characters -/

/-- There is no control character in a text. -/
def NoControl (cs : List Char) : Prop := ∀ c ∈ cs, 32 ≤ c.toNat

instance : DecidablePred NoControl := fun cs => List.decidableBAll (32 ≤ Char.toNat ·) cs

theorem noControl_append {cs cs' : List Char} :
    NoControl (cs ++ cs') ↔ NoControl cs ∧ NoControl cs' :=
  List.forall_mem_append

theorem noControl_cons {c : Char} {cs : List Char} :
    NoControl (c :: cs) ↔ 32 ≤ c.toNat ∧ NoControl cs :=
  List.forall_mem_cons

theorem noControl_escape (c : Char) : NoControl (escape c) := by
  unfold escape
  split_ifs with _ _ _ _ _ _ _ hcontrol
  iterate 7
    · decide
  · have hescapes : ∀ n < 32,
        NoControl ['\\', 'u', '0', '0', Nat.digitChar (n / 16), Nat.digitChar (n % 16)] := by decide
    exact hescapes c.toNat hcontrol
  · exact List.forall_mem_singleton.2 (Nat.not_lt.1 hcontrol)

theorem noControl_quote (text : String) : NoControl (quote text) := by
  rw [quote, noControl_append, noControl_cons]
  exact ⟨⟨by decide, List.forall_mem_flatMap.2 fun c _ => noControl_escape c⟩, by decide⟩

theorem noControl_numberText (x : Float) : NoControl (numberText x) := by
  by_cases hx : magnitude x < infinite
  · obtain ⟨n, htext, hn, -⟩ := exists_numberText_eq hx
    rw [htext, noControl_append, Number.signText]
    refine ⟨?_, fun c hc => ?_⟩
    · split_ifs <;> decide
    · rcases hn.mem_text hc with hdigit | rfl | hmark | rfl | rfl
      · exact Nat.le_trans (by decide) (Char.isDigit_iff_toNat.1 hdigit).1
      · decide
      · rw [Numeral.isMark, Bool.or_eq_true, decide_eq_true_iff, decide_eq_true_iff] at hmark
        rcases hmark with rfl | rfl <;> decide
      · decide
      · decide
  · rw [numberText_of_infinite_le (Nat.not_lt.1 hx)]
    decide

mutual

/-- The text of a value has no control characters. -/
theorem noControl_characters (json : Json) : NoControl json.characters := by
  cases json with
  | null => decide
  | number x => exact noControl_numberText x
  | string text => exact noControl_quote text
  | array items =>
    rw [characters, noControl_append, noControl_cons]
    exact ⟨⟨by decide, noControl_itemsText items⟩, by decide⟩
  | object members =>
    rw [characters, noControl_append, noControl_cons]
    exact ⟨⟨by decide, noControl_membersText members⟩, by decide⟩

theorem noControl_itemsText (items : List Json) : NoControl (itemsText items) := by
  match items with
  | [] => decide
  | [item] => exact noControl_characters item
  | item :: item' :: items =>
    rw [itemsText_cons_cons, noControl_append, noControl_cons]
    exact ⟨noControl_characters item, by decide, noControl_itemsText (item' :: items)⟩

theorem noControl_membersText (members : List (String × Json)) :
    NoControl (membersText members) := by
  match members with
  | [] => decide
  | [(name, v)] =>
    rw [membersText, noControl_append, noControl_cons]
    exact ⟨noControl_quote name, by decide, noControl_characters v⟩
  | (name, v) :: member :: members =>
    rw [membersText_cons_cons, noControl_append, noControl_append, noControl_cons, noControl_cons]
    exact ⟨⟨noControl_quote name, by decide, noControl_characters v⟩, by decide,
      noControl_membersText (member :: members)⟩

end

end Derivatives.Json
