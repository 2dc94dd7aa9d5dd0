import Derivatives.Proofs.Cursor
import Derivatives.Proofs.Grammar.Acceptance
import Derivatives.Proofs.Grammar.Limits
import Derivatives.Proofs.Number.Display

/-!
# The infix form is read back

The infix form of an expression is the text of a factor (`Expr.IsInfix`): each inner
node is a group of its own, so that parentheses nest one level less deep than the
expression does, and each number is a literal, provided that it is finite and has no
sign (`Number.IsUnsigned`). So reading the infix form gives the expression back, or
refuses it for nesting too deep (`Expr.parse_render_eq`).

The numbers of an expression that has been read are such (`Expr.isUnsigned_of_parse`),
and deriving it adds none but 0 and 1 (`Expr.mem_constants_derivative`), so this holds
of whatever comes of a line (`Formula.parse_render`).
-/

namespace Derivatives

open Grammar Number

/-! ## The text of a factor -/

namespace Expr

/-- A derivation of the infix form of an expression, behind blanks. -/
structure IsInfix (e : Expr) (blanks : Blanks) (d : Derivation .factor) : Prop where
  text : d.text = blanks.val ++ e.render.toList
  tree : d.tree = e
  nesting : d.nesting + 1 = e.depth
  finite : ∀ n ∈ d.literals, n.val.IsFinite

variable {left right operand : Expr} {l r a : Derivation .factor} {op : Operator}

theorem exists_isInfix_constant {value : Float} (hv : IsUnsigned value) (blanks : Blanks) :
    ∃ d, (constant value).IsInfix blanks d := by
  obtain ⟨n, htext, hn, -, hfinite, rfl⟩ := exists_display_eq hv
  exact ⟨.number blanks ⟨n, hn⟩, congrArg (blanks.val ++ ·) htext.symm, rfl, rfl,
    List.forall_mem_singleton.2 hfinite⟩

/-- The group of a sum: its terms are the operands. -/
theorem IsInfix.sum (hl : left.IsInfix space l) (hr : right.IsInfix space r)
    (hop : op.isAdditive = true) (blanks : Blanks) :
    (binary op left right).IsInfix blanks (.group blanks
      (.expression none (.term l .noFactor) (.andTerm space op hop (.term r .noFactor) .noTerm))
      space) where
  text := by
    simp [Derivation.text, hl.text, hr.text, render, space]
  tree := by
    rw [← hl.tree, ← hr.tree]
    rfl
  nesting := by
    simp only [Derivation.nesting, depth, ← hl.nesting, ← hr.nesting]
    omega
  finite := by
    simp only [Derivation.literals, List.append_nil, List.forall_mem_append]
    exact ⟨hl.finite, hr.finite⟩

/-- The group of a product: its factors are the operands. -/
theorem IsInfix.product (hl : left.IsInfix space l) (hr : right.IsInfix space r)
    (hop : op.isAdditive = false) (blanks : Blanks) :
    (binary op left right).IsInfix blanks (.group blanks
      (.expression none (.term l (.andFactor space op hop r .noFactor)) .noTerm) space) where
  text := by
    simp [Derivation.text, hl.text, hr.text, render, space]
  tree := by
    rw [← hl.tree, ← hr.tree]
    rfl
  nesting := by
    simp only [Derivation.nesting, depth, ← hl.nesting, ← hr.nesting]
    omega
  finite := by
    simp only [Derivation.literals, List.append_nil, List.forall_mem_append]
    exact ⟨hl.finite, hr.finite⟩

/-- The group of a negation: the operand is its first term, as a whole. -/
theorem IsInfix.negation (ha : operand.IsInfix noBlanks a) (blanks : Blanks) :
    (negate operand).IsInfix blanks (.group blanks
      (.expression (some space) (.term a .noFactor) .noTerm) space) where
  text := by
    simp [Derivation.text, ha.text, render, space, noBlanks]
  tree := by
    rw [← ha.tree]
    rfl
  nesting := by
    simp only [Derivation.nesting, depth, ← ha.nesting]
    omega
  finite := by
    simpa only [Derivation.literals, List.append_nil] using ha.finite

theorem exists_isInfix (e : Expr) (he : ∀ v ∈ e.constants, IsUnsigned v) (blanks : Blanks) :
    ∃ d, e.IsInfix blanks d := by
  induction e generalizing blanks with
  | constant value => exact exists_isInfix_constant (he value List.mem_cons_self) blanks
  | var =>
    exact ⟨.var blanks 'X' (.inr rfl), rfl, rfl, rfl, fun n hn => absurd hn List.not_mem_nil⟩
  | binary op left right ihl ihr =>
    rw [constants, List.forall_mem_append] at he
    obtain ⟨l, hl⟩ := ihl he.1 space
    obtain ⟨r, hr⟩ := ihr he.2 space
    rcases hop : op.isAdditive with _ | _
    · exact ⟨_, hl.product hr hop blanks⟩
    · exact ⟨_, hl.sum hr hop blanks⟩
  | negate operand ih =>
    obtain ⟨a, ha⟩ := ih he noBlanks
    exact ⟨_, ha.negation blanks⟩

/-- The infix form of an expression is a sentence. -/
theorem exists_sentence (e : Expr) (he : ∀ v ∈ e.constants, IsUnsigned v) :
    ∃ s : Sentence, s.text = e.render.toList ∧ s.tree = e ∧
      s.expression.nesting + 1 = e.depth ∧ ∀ n ∈ s.expression.literals, n.val.IsFinite := by
  obtain ⟨d, hd⟩ := exists_isInfix e he noBlanks
  refine ⟨⟨.expression none (.term d .noFactor) .noTerm, noBlanks⟩, ?_, hd.tree, ?_, ?_⟩
  · simp [Sentence.text, Derivation.text, hd.text, noBlanks]
  · simpa [Derivation.nesting] using hd.nesting
  · simpa [Derivation.literals] using hd.finite

/-! ## The line of an infix form -/

theorem isTerminator_getLast_text {n : Numeral} (hn : n.IsLiteral) {c : Char}
    (hc : c ∈ n.text.getLast?) : isTerminator c = false := by
  have hform := hn.getLast_text hc
  rw [isTerminator, Bool.or_eq_false_iff, decide_eq_false_iff_not, decide_eq_false_iff_not]
  constructor <;> rintro rfl <;> exact absurd hform (by decide)

/-- The infix form does not end with a terminator, so that it is a line as it is. -/
theorem lineCharacters_render (e : Expr) (he : ∀ v ∈ e.constants, IsUnsigned v) :
    lineCharacters e.render = e.render.toList := by
  have hlast : ∀ c ∈ e.render.toList.getLast?, isTerminator c = false := by
    cases e with
    | constant value =>
      obtain ⟨n, htext, hn, -⟩ := exists_display_eq (he value List.mem_cons_self)
      intro c hc
      rw [render, htext] at hc
      exact isTerminator_getLast_text hn hc
    | var => simp [render, isTerminator]
    | binary op left right | negate operand =>
      have hlast : " )".toList.getLast? = some ')' := by decide
      intro c hc
      rw [render, String.toList_append, List.getLast?_append, hlast] at hc
      obtain rfl := Option.some.inj hc
      rfl
  exact lineCharacters_eq hlast

/-- The infix form is read back, unless the expression is too deep, which it is then
    refused for. -/
theorem parse_render_eq (e : Expr) (he : ∀ v ∈ e.constants, IsUnsigned v) :
    parse e.render =
      if e.depth ≤ maxDepth then .ok e else .error (.nestedTooDeeply maxDepth) := by
  obtain ⟨s, htext, rfl, hnesting, hfinite⟩ := exists_sentence e he
  split_ifs with hdepth
  · have hs : s.Readable := ⟨by omega, hfinite, hdepth⟩
    exact parse_eq_ok_iff_sentence.2 ⟨s, htext.trans (lineCharacters_render _ he).symm, hs, rfl⟩
  · rw [parse_eq, lineCharacters_render _ he, ← htext]
    exact Sentence.after_text_bind_finish hfinite fun hs => hdepth hs.depth_le

end Expr

/-! ## The numbers of what has been read -/

/-- The numbers in what a derivation stands for are those in the derivation. -/
def Grammar.Derivation.HasConstants : {s : Symbol} → Derivation s → Prop
  | .expression, d | .term, d | .factor, d =>
    d.tree.constants = d.literals.map fun n => n.val.double
  | .terms, d | .factors, d =>
    ∀ left, (d.tree left).constants = left.constants ++ d.literals.map fun n => n.val.double

theorem Grammar.Derivation.hasConstants {s : Symbol} (d : Derivation s) : d.HasConstants := by
  induction d with
  | expression minus first more ihfirst ihmore =>
    have hmore : ∀ left, (more.tree left).constants = left.constants ++ _ := ihmore
    have hfirst : first.tree.constants = _ := ihfirst
    cases minus with
    | none => rw [HasConstants, tree, hmore, hfirst, literals, List.map_append]
    | some blanks =>
      rw [HasConstants, tree, hmore, Expr.constants, hfirst, literals, List.map_append]
  | noTerm | noFactor => exact fun left => (List.append_nil _).symm
  | andTerm blanks op hop next more ihnext ihmore
  | andFactor blanks op hop next more ihnext ihmore =>
    have hmore : ∀ left, (more.tree left).constants = left.constants ++ _ := ihmore
    have hnext : next.tree.constants = _ := ihnext
    intro left
    rw [tree, hmore, Expr.constants, hnext, literals, List.map_append, List.append_assoc]
  | term first more ihfirst ihmore =>
    have hmore : ∀ left, (more.tree left).constants = left.constants ++ _ := ihmore
    have hfirst : first.tree.constants = _ := ihfirst
    rw [HasConstants, tree, hmore, hfirst, literals, List.map_append]
  | number | var => rfl
  | group blanks inner closing ih => exact ih

namespace Expr

theorem isUnsigned_of_parse {line : String} {e : Expr} (h : parse line = .ok e) :
    ∀ v ∈ e.constants, IsUnsigned v := by
  obtain ⟨s, -, hs, rfl⟩ := parse_eq_ok_iff_sentence.1 h
  have hconstants : s.tree.constants = s.expression.literals.map fun n => n.val.double :=
    s.expression.hasConstants
  rw [hconstants, List.forall_mem_map]
  exact fun n hn => isUnsigned_ofMagnitude (hs.finite n hn)

/-- What has been read is not too deep. -/
theorem depth_le_of_parse {line : String} {e : Expr} (h : parse line = .ok e) :
    e.depth ≤ maxDepth := by
  obtain ⟨s, -, hs, rfl⟩ := parse_eq_ok_iff_sentence.1 h
  exact hs.depth_le

/-- The infix form of what has been read is read as the same expression. -/
theorem parse_render_of_parse {line : String} {e : Expr} (h : parse line = .ok e) :
    parse e.render = .ok e := by
  rw [parse_render_eq e (isUnsigned_of_parse h), if_pos (depth_le_of_parse h)]

/-- The numbers of a derivative are those of the expression, and 0 and 1. -/
theorem mem_constants_derivative (e : Expr) :
    ∀ v ∈ e.derivative.constants, v ∈ e.constants ∨ v = 0.0 ∨ v = 1.0 := by
  induction e with
  | constant value => simp [derivative, constants]
  | var => simp [derivative, constants]
  | binary op left right ihl ihr =>
    cases op <;> simp only [derivative, constants, List.mem_append] <;> grind
  | negate operand ih => exact ih

theorem constants_iterate_negate (e : Expr) (n : Nat) :
    (negate^[n] e).constants = e.constants := by
  induction n with
  | zero => rfl
  | succ n ih => rw [Function.iterate_succ_apply', constants, ih]

theorem depth_iterate_negate (e : Expr) (n : Nat) : (negate^[n] e).depth = e.depth + n := by
  induction n with
  | zero => rfl
  | succ n ih => rw [Function.iterate_succ_apply', depth, ih, Nat.add_assoc]

theorem isUnsigned_derivative {e : Expr} (he : ∀ v ∈ e.constants, IsUnsigned v) :
    ∀ v ∈ e.derivative.constants, IsUnsigned v := by
  intro v hv
  rcases e.mem_constants_derivative v hv with h | rfl | rfl
  · exact he v h
  · decide
  · decide

end Expr

namespace Formula

variable {f : Formula}

theorem isUnsigned_of_parse {line : String} (h : parse line = .ok f) :
    ∀ v ∈ f.toExpr.constants, IsUnsigned v := by
  obtain ⟨e, he, rfl⟩ := exists_of_parse h
  rw [toExpr_ofExpr]
  exact Expr.isUnsigned_of_parse he

theorem isUnsigned_iterate_derivative (hf : f.WellFormed)
    (hc : ∀ v ∈ f.toExpr.constants, IsUnsigned v) (n : Nat) :
    ∀ v ∈ (derivative^[n] f).toExpr.constants, IsUnsigned v := by
  rw [toExpr_iterate_derivative hf]
  induction n with
  | zero => exact hc
  | succ n ih =>
    rw [Function.iterate_succ_apply']
    exact Expr.isUnsigned_derivative ih

/-- The infix form of a formula whose numbers are finite and have no sign is read back,
    as a formula of the same expression, unless that is too deep, which it is then
    refused for; and the numbers of what has been read, and derived any number of times,
    are such. -/
theorem parse_render :
    (∀ f : Formula, f.WellFormed → (∀ v ∈ f.toExpr.constants, IsUnsigned v) →
      (f.depth ≤ maxDepth → ∃ f', parse f.render = .ok f' ∧ f'.toExpr = f.toExpr) ∧
      (maxDepth < f.depth → parse f.render = .error (.nestedTooDeeply maxDepth))) ∧
    ∀ line f, parse line = .ok f → ∀ n, (derivative^[n] f).WellFormed ∧
      ∀ v ∈ (derivative^[n] f).toExpr.constants, IsUnsigned v := by
  constructor
  · intro f hf hc
    have hdepth : f.depth = f.toExpr.depth := Graph.depth_eq hf.graph hf.root
    have hparse := f.toExpr.parse_render_eq hc
    rw [hdepth]
    constructor
    · intro hle
      rw [if_pos hle] at hparse
      exact exists_parse_iff.2 hparse
    · intro hlt
      rw [if_neg (Nat.not_le.2 hlt)] at hparse
      exact congrArg (Except.map ofExpr) hparse
  · intro line f h n
    have hf := wellFormed_of_parse h
    exact ⟨iterate_derivative_wellFormed hf n,
      isUnsigned_iterate_derivative hf (isUnsigned_of_parse h) n⟩

/-- The negation of a product's factor comes back, and so does what is made of it; a
    negation in a negation, and so on, 512 times, does not. -/
theorem parse_render_negations :
    let f : Formula := ⟨⟨#[.var, .negate 0, .constant 2.0, .binary .mul 1 2]⟩, 3⟩
    (∃ f', parse f.render = .ok f' ∧ f'.toExpr = f.toExpr ∧
      ∀ v ∈ (derivative^[2] f').toExpr.constants, IsUnsigned v) ∧
    parse (ofExpr (Expr.negate^[512] .var)).render = .error (.nestedTooDeeply maxDepth) := by
  have hdeep (n : Nat) (hn : maxDepth ≤ n) : parse (ofExpr (Expr.negate^[n] .var)).render =
      .error (.nestedTooDeeply maxDepth) := by
    have hf := ofExpr_wellFormed (Expr.negate^[n] .var)
    have htree := toExpr_ofExpr (Expr.negate^[n] .var)
    refine (parse_render.1 _ hf ?_).2 ?_
    · rw [htree, Expr.constants_iterate_negate]
      exact fun v hv => absurd hv List.not_mem_nil
    · rw [depth, Graph.depth_eq hf.graph hf.root]
      change maxDepth < (toExpr _).depth
      rw [htree, Expr.depth_iterate_negate, Expr.depth]
      omega
  intro f
  have hf : f.WellFormed := ⟨by decide, by decide⟩
  obtain ⟨f', hf', htree⟩ := (parse_render.1 f hf (by decide)).1 (by decide)
  exact ⟨⟨f', hf', htree, (parse_render.2 _ f' hf' 2).2⟩, hdeep 512 (Nat.le_refl _)⟩

end Formula

end Derivatives
