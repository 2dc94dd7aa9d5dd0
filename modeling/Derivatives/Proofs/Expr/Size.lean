import Derivatives.Proofs.Expr.Refusal
import Mathlib.Algebra.Ring.Nat

/-!
# The size of what is read

While a text is read, its state has the nodes of what has come so far (`Reading.size`): those
of the operands, one for each operator that awaits its right operand, and one for each minus
sign in front of a term that is not complete. A token adds one node, but for parentheses, which
open and close groups. So what a text adds is known from its characters
(`Reading.accounts_of_after`): the first one of a token makes a node or is a parenthesis, and
only numbers have more (`Token.width`).

In the end, the groups have been closed, and what has been added is the expression. It has
as many nodes as the text has characters that are neither blanks, nor parentheses, nor
behind the first one of a number (`Expr.size_of_parse`).
-/

namespace Derivatives

open Number Grammar

/-- The number of characters of a token. -/
def Token.width : Token → Nat
  | .numeral n => n.text.length
  | _ => 1

theorem Token.Spelling.width_pos {t : Token} {w : List Char} (h : t.Spelling w) : 0 < t.width := by
  cases h with
  | numeral hn =>
    obtain ⟨c, cs, htext, -⟩ := hn.exists_text_eq_cons
    rw [Token.width, htext]
    exact Nat.succ_pos _
  | _ => exact Nat.one_pos

theorem width_pos_of_mem_tokens {t : Token} {cs : List Char} (ht : t ∈ tokens cs) :
    0 < t.width := by
  induction hts : tokens cs generalizing cs with
  | nil =>
    rw [hts] at ht
    cases ht
  | cons t' ts ih =>
    obtain ⟨bs, w, rest, -, hspelling, -, rfl⟩ := exists_of_tokens_eq_cons hts
    rw [hts] at ht
    rcases List.mem_cons.1 ht with rfl | ht
    · exact hspelling.width_pos
    · exact ih ht rfl

/-- No token has more than one character just if no number has. -/
theorem sum_width_eq_zero_iff (cs : List Char) :
    ((tokens cs).map fun t => t.width - 1).sum = 0 ↔
      ∀ n, .numeral n ∈ tokens cs → n.text.length = 1 := by
  rw [List.sum_eq_zero_iff_forall_eq_nat, List.forall_mem_map]
  constructor
  · intro h n hn
    have hpos := width_pos_of_mem_tokens hn
    have hle := h _ hn
    change 0 < n.text.length at hpos
    change n.text.length - 1 = 0 at hle
    omega
  · intro h t ht
    cases t with
    | numeral n => exact Nat.sub_eq_zero_of_le (Nat.le_of_eq (h n ht))
    | _ => rfl

/-! ## The nodes of a state -/

/-- The number of nodes to the left of a term, with the one that the term is to be joined
    by. -/
def Lead.size : Lead → Nat
  | start => 0
  | minus => 1
  | sum left _ => left.size + 1

theorem Lead.size_append (lead : Lead) (term : Expr) :
    (lead.append term).size = lead.size + term.size := by
  cases lead with
  | start => exact (Nat.zero_add _).symm
  | minus => exact Nat.add_comm _ _
  | sum left op => exact Nat.add_right_comm _ _ _

/-- The number of nodes to the left of an operand in its group, with those that the operand
    is to be joined by. -/
def Pending.size (pending : Pending) : Nat :=
  pending.lead.size + pending.product.elim 0 fun product => product.1.size + 1

namespace Reading

/-- The number of nodes in front of a state, inside of all groups. -/
def size : Reading → Nat
  | awaiting outer pending => (outer.map Pending.size).sum + pending.size
  | complete outer lead term => (outer.map Pending.size).sum + (lead.size + term.size)

variable {state next last : Reading} {outer : List Pending} {pending : Pending} {t : Token}
  {v w cs : List Char} {m n : Nat}

theorem size_afterOperand (outer : List Pending) (pending : Pending) (operand : Expr) :
    (afterOperand outer pending operand).size =
      (awaiting outer pending).size + operand.size := by
  rw [afterOperand, size, size, Pending.size, Pending.append]
  cases pending.product with
  | none =>
    dsimp only [Option.elim]
    omega
  | some product =>
    dsimp only [Option.elim, Expr.size]
    omega

/-! ## What is added by a text -/

/-- A text accounts for the way from one state to another, `surplus` characters of it being
    further ones of their tokens. -/
structure Accounts (state next : Reading) (w : List Char) (surplus : Nat) : Prop where
  /-- Parentheses open groups and close them. -/
  level_eq : next.level + w.count ')' = state.level + w.count '('
  /-- Any other character that is neither a blank nor a further one of its token adds a node. -/
  size_eq : next.size + (w.count '(' + w.count ')') + surplus =
    state.size + w.countP fun c => !isBlank c

theorem Accounts.append (h : Accounts state next v m) (h' : Accounts next last w n) :
    Accounts state last (v ++ w) (m + n) := by
  obtain ⟨hlevel, hsize⟩ := h
  obtain ⟨hlevel', hsize'⟩ := h'
  constructor
  · rw [List.count_append, List.count_append]
    omega
  · rw [List.count_append, List.count_append, List.countP_append]
    omega

theorem count_parentheses_eq_zero (hw : ∀ c ∈ w, c ≠ '(' ∧ c ≠ ')') :
    w.count '(' = 0 ∧ w.count ')' = 0 :=
  ⟨List.count_eq_zero.2 fun hc => (hw _ hc).1 rfl, List.count_eq_zero.2 fun hc => (hw _ hc).2 rfl⟩

theorem accounts_blanks (state : Reading) (blanks : Blanks) :
    Accounts state state blanks.val 0 := by
  obtain ⟨hleft, hright⟩ := count_parentheses_eq_zero blanks.ne_parenthesis
  have hblank : blanks.val.countP (fun c => !isBlank c) = 0 :=
    List.countP_eq_zero.2 fun c hc => by rw [blanks.property c hc]; exact Bool.false_ne_true
  constructor
  · rw [hleft, hright]
  · rw [hleft, hright, hblank]

/-- What an operand adds that is no group. -/
theorem accounts_afterOperand {operand : Expr} (hoperand : operand.size = 1)
    (hw : ∀ c ∈ w, isBlank c = false ∧ c ≠ '(' ∧ c ≠ ')') (hpos : 0 < w.length) :
    Accounts (awaiting outer pending) (afterOperand outer pending operand) w (w.length - 1) := by
  obtain ⟨hleft, hright⟩ := count_parentheses_eq_zero fun c hc => (hw c hc).2
  have hlength : w.countP (fun c => !isBlank c) = w.length :=
    List.countP_eq_length.2 fun c hc => by rw [(hw c hc).1]; rfl
  constructor
  · rw [hleft, hright]
    rfl
  · rw [hleft, hright, hlength, size_afterOperand, hoperand]
    omega

theorem isBlank_of_mem_text {n : Numeral} {c : Char} (hn : n.WellFormed) (hc : c ∈ n.text) :
    isBlank c = false := by
  refine Bool.eq_false_iff.2 fun hblank => ?_
  have hform := hn.mem_text hc
  rcases eq_of_isBlank hblank with rfl | rfl <;> exact absurd hform (by decide)

/-- What a token adds. -/
theorem accounts_of_step (hs : state.step t = .ok next) (ht : t.Spelling w) :
    Accounts state next w (t.width - 1) := by
  cases Steps.of_step hs with
  | @numeral _ _ n =>
    cases ht with
    | numeral hn =>
      have hpos : 0 < n.text.length := (Token.Spelling.numeral hn).width_pos
      have hform : n.WellFormed := hn.toWellFormed
      exact accounts_afterOperand rfl
        (fun c hc => ⟨isBlank_of_mem_text hform hc, hform.ne_parenthesis c hc⟩) hpos
  | var =>
    cases ht with
    | var hc =>
      refine accounts_afterOperand rfl (List.forall_mem_singleton.2 ?_) Nat.one_pos
      rcases hc with rfl | rfl <;> decide
  -- A node that is to join an operand that has not come yet is counted as soon as the operator
  -- has, so that the operand only adds its own.
  | minus =>
    cases ht
    exact ⟨rfl, rfl⟩
  | @additive outer lead term op hop =>
    cases ht
    have hsize : (awaiting outer { lead := .sum (lead.append term) op }).size =
        (complete outer lead term).size + 1 := by
      rw [size, size, Pending.size, Lead.size, Lead.size_append]
      rfl
    cases op <;> exact ⟨rfl, hsize⟩
  | @multiplicative outer lead term op hop =>
    cases ht
    have hsize : (awaiting outer { lead, product := some (term, op) }).size =
        (complete outer lead term).size + 1 := rfl
    cases op <;> exact ⟨rfl, hsize⟩
  -- Parentheses add no node: what stands to the left of a group stays counted inside of it.
  | leftParenthesis =>
    cases ht
    refine ⟨rfl, ?_⟩
    rw [size, size, List.map_cons, List.sum_cons, Nat.add_comm (Pending.size _)]
    rfl
  | @rightParenthesis outer pending lead term =>
    cases ht
    have hsize : (afterOperand outer pending (lead.append term)).size =
        (complete (pending :: outer) lead term).size := by
      rw [size_afterOperand, Lead.size_append, size, size, List.map_cons, List.sum_cons]
      omega
    exact ⟨rfl, congrArg (· + 1) hsize⟩

/-- What a text adds. -/
theorem accounts_of_after (h : state.after cs = .ok last) :
    Accounts state last cs ((tokens cs).map fun t => t.width - 1).sum := by
  -- By induction on the tokens: blanks, the text of the first one, and the rest.
  induction hts : tokens cs generalizing state cs with
  | nil =>
    rw [after_of_blank hts] at h
    obtain rfl := Except.ok.inj h
    exact accounts_blanks state ⟨cs, isBlank_of_tokens_eq_nil hts⟩
  | cons t ts ih =>
    obtain ⟨bs, w, rest, hbs, hspelling, rfl, rfl⟩ := exists_of_tokens_eq_cons hts
    cases hstep : state.step t with
    | error err =>
      rw [after_of_error hts hstep] at h
      cases h
    | ok next =>
      rw [after_of_step hts hstep] at h
      have htoken := (accounts_of_step hstep hspelling).append (ih h rfl)
      have hall := (accounts_blanks state ⟨bs, hbs⟩).append htoken
      rwa [Nat.zero_add] at hall

end Reading

/-! ## Lines -/

/-- On a line with an expression, parentheses come in pairs, and any other character makes a
    node, unless it is a blank or a further one of a number. -/
theorem Expr.size_of_parse {line : String} {e : Expr} (h : Expr.parse line = .ok e) :
    (lineCharacters line).count ')' = (lineCharacters line).count '(' ∧
    e.size + 2 * (lineCharacters line).count '(' +
        ((tokens (lineCharacters line)).map fun t => t.width - 1).sum =
      (lineCharacters line).countP fun c => !isBlank c := by
  obtain ⟨last, hafter, hfinish⟩ := Expr.parse_eq_ok_iff.1 h
  obtain ⟨hlevel, hsize⟩ := Reading.accounts_of_after hafter
  have hlast : last.level = 0 ∧ last.size = e.size := by
    cases last with
    | awaiting outer pending => cases hfinish
    | complete outer lead term =>
      cases outer with
      | cons pending outer => cases hfinish
      | nil =>
        rw [Reading.finish] at hfinish
        split at hfinish
        · cases hfinish
        · obtain rfl := Except.ok.inj hfinish
          exact ⟨rfl, (Nat.zero_add _).trans (lead.size_append term).symm⟩
  have hinitial : Reading.initial.level = 0 ∧ Reading.initial.size = 0 := ⟨rfl, rfl⟩
  omega

end Derivatives
