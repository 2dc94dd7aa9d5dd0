import Derivatives.Proofs.Expr.Infix
import Derivatives.Proofs.Graph.Measure
import Mathlib.Tactic.Linarith

/-!
# How much deriving adds

Deriving visits the expression at a place, and adds the nodes of a rule for each node it comes
to, so the number of nodes added is told by the kinds of the nodes of the expression, each
counted as often as it occurs (`Graph.length_block`). The nodes added make up a block
(`Graph.block`): those of the derivatives of the operands, one operand after the other, and then
those of the rule, the last of which is the root (`Graph.block_of_binary`, `Graph.root_derive`).

The derivative is larger than what has been added, as it shares the operands. Still, it has no
more than three times the levels of the expression (`Expr.depth_derivative_le`), and no more
nodes than three for each of its nodes and levels (`Expr.size_derivative_le`). As a formula on a
line is not too deep, visits to its derivative are bounded, and so is its code
(`Formula.visit?_derivative_of_parse`, `Formula.length_commands_derivative_le`).
-/

namespace Derivatives

/-- The kinds of nodes that the rules tell apart. -/
inductive Kind
  /-- A number or the variable. -/
  | leaf
  /-- A negation. -/
  | negation
  /-- A sum or a difference. -/
  | sum
  /-- A product. -/
  | product
  /-- A quotient. -/
  | quotient
  deriving DecidableEq

/-- The number of nodes that the rule for a kind adds. -/
def Kind.cost : Kind → Nat
  | leaf | negation | sum => 1
  | product => 3
  | quotient => 5

/-- The kind of the nodes of an operator. -/
def Operator.kind : Operator → Kind
  | add | sub => .sum
  | mul => .product
  | div => .quotient

theorem Kind.sum_cost (kinds : List Kind) :
    (kinds.map cost).sum = kinds.count leaf + kinds.count negation + kinds.count sum +
      3 * kinds.count product + 5 * kinds.count quotient := by
  induction kinds with
  | nil => rfl
  | cons kind kinds ih => cases kind <;> simp [cost, ih] <;> omega

namespace Expr

/-- The kinds of the nodes of an expression, operands first. -/
def kinds : Expr → List Kind
  | constant _ | var => [.leaf]
  | binary op left right => left.kinds ++ right.kinds ++ [op.kind]
  | negate operand => operand.kinds ++ [.negation]

theorem length_kinds (e : Expr) : e.kinds.length = e.size := by
  induction e with
  | constant value | var => rfl
  | binary op left right ihl ihr => simp [kinds, size, ihl, ihr, Nat.add_assoc]
  | negate operand ih => simp [kinds, size, ih]

/-! ## Bounds on the derivative -/

/-- A derivative has no more than three times the levels of the expression. -/
theorem depth_derivative_le (e : Expr) : e.derivative.depth + 2 ≤ 3 * e.depth := by
  induction e with
  | constant value | var => exact Nat.le_refl 3
  | binary op a b iha ihb =>
    have ha := a.depth_pos
    have hb := b.depth_pos
    cases op <;> simp only [derivative, depth] <;> omega
  | negate a ih =>
    simp only [derivative, depth]
    omega

/-- What the derivatives of the operands add up to, with a few nodes for the rule. -/
theorem size_derivative_operands_le {a b : Expr} (ha : a.derivative.size ≤ 3 * a.size * a.depth)
    (hb : b.derivative.size ≤ 3 * b.size * b.depth) :
    a.derivative.size + b.derivative.size + 3 * (a.size + b.size + 1) +
        3 * max a.depth b.depth ≤ 3 * (a.size + b.size + 1) * (max a.depth b.depth + 1) := by
  have ha' : a.size * a.depth ≤ a.size * max a.depth b.depth :=
    Nat.mul_le_mul_left _ (Nat.le_max_left _ _)
  have hb' : b.size * b.depth ≤ b.size * max a.depth b.depth :=
    Nat.mul_le_mul_left _ (Nat.le_max_right _ _)
  nlinarith

/-- A derivative has no more than three nodes for each node and level of the expression. -/
theorem size_derivative_le (e : Expr) : e.derivative.size ≤ 3 * e.size * e.depth := by
  induction e with
  | constant value | var => exact (by decide : 1 ≤ 3 * 1 * 1)
  | binary op a b iha ihb =>
    have hoperands := size_derivative_operands_le iha ihb
    have ha := a.depth_pos
    cases op <;> simp only [derivative, size, depth] <;> omega
  | negate a ih =>
    simp only [derivative, size, depth]
    nlinarith

end Expr

/-! ## The nodes added -/

/-- The nodes of the rule of an operator, the first of which stands at the place `n`, for the
    operands `a` and `b` with the derivatives `da` and `db`. -/
def Operator.rule (op : Operator) (a b da db n : Nat) : List (Node Nat) :=
  match op with
  | add | sub => [.binary op da db]
  | mul => [.binary mul a db, .binary mul b da, .binary add n (n + 1)]
  | div => [.binary mul a db, .binary mul b da, .binary sub (n + 1) n, .binary mul b b,
      .binary div (n + 2) (n + 3)]

theorem Operator.length_rule (op : Operator) (a b da db n : Nat) :
    (op.rule a b da db n).length = op.kind.cost := by
  cases op <;> rfl

namespace Graph

variable {g g' : Graph} {root a b da db : Nat} {op : Operator}

theorem nodes_addRule (g : Graph) (op : Operator) (a b da db : Nat) :
    (g.addRule op a b da db).1.nodes.toList =
      g.nodes.toList ++ op.rule a b da db g.size := by
  cases op <;> simp [addRule, Operator.rule, add, size]

theorem root_addRule (g : Graph) (op : Operator) (a b da db : Nat) :
    (g.addRule op a b da db).2 + 1 = (g.addRule op a b da db).1.size := by
  cases op <;> exact (size_add _ _).symm

/-- The nodes that deriving the expression at a place adds. -/
def block (g : Graph) (root : Nat) : List (Node Nat) :=
  (g.derive root).1.nodes.toList.drop g.size

theorem Extends.append_drop (h : g.Extends g') :
    g.nodes.toList ++ g'.nodes.toList.drop g.size = g'.nodes.toList :=
  List.prefix_iff_eq_append.1 h

theorem nodes_derive (hg : g.WellFormed) (hlt : root < g.size) :
    (g.derive root).1.nodes.toList = g.nodes.toList ++ g.block root :=
  (derive_grown_isDerivative hg hlt).1.extension.append_drop.symm

theorem size_derive (hg : g.WellFormed) (hlt : root < g.size) :
    (g.derive root).1.size = g.size + (g.block root).length := by
  have := congrArg List.length (nodes_derive hg hlt)
  rwa [List.length_append] at this

theorem block_eq_of_nodes_eq {block : List (Node Nat)}
    (h : (g.derive root).1.nodes.toList = g.nodes.toList ++ block) : g.block root = block := by
  rw [Graph.block, h]
  exact List.drop_left

/-- The root of a derivative is the last node added. -/
theorem root_derive (hg : g.WellFormed) (hlt : root < g.size) :
    (g.derive root).2 + 1 = (g.derive root).1.size := by
  obtain ⟨node, hr⟩ := exists_getElem? hlt
  cases node with
  | constant value => rw [derive_of_constant hr]; exact (size_add _ _).symm
  | var => rw [derive_of_var hr]; exact (size_add _ _).symm
  | negate a => rw [derive_of_negate hg hr]; exact (size_add _ _).symm
  | binary op a b => rw [derive_of_binary hg hr]; exact root_addRule _ op a b _ _

theorem block_of_negate (hg : g.WellFormed) (hr : g.nodes[root]? = some (.negate a)) :
    g.block root = g.block a ++ [.negate (g.derive a).2] := by
  have ha : a < root := hg root _ hr a (by simp [Node.operands])
  have hda := nodes_derive hg (Nat.lt_trans ha (lt_size_of_getElem? hr))
  refine block_eq_of_nodes_eq ?_
  rw [derive_of_negate hg hr, nodes_add, hda, List.append_assoc]

/-- The nodes added for an operator: those for its operands, one after the other, and then
    those of its rule. -/
theorem block_of_binary (hg : g.WellFormed) (hr : g.nodes[root]? = some (.binary op a b)) :
    let g₁ := (g.derive a).1
    g.block root = g.block a ++ g₁.block b ++ op.rule a b (g.derive a).2 (g₁.derive b).2
      (g.size + (g.block a).length + (g₁.block b).length) := by
  intro g₁
  have ha : a < root := hg root _ hr a (by simp [Node.operands])
  have hb : b < root := hg root _ hr b (by simp [Node.operands])
  have hlt := lt_size_of_getElem? hr
  have hgrown := (derive_grown_isDerivative hg (Nat.lt_trans ha hlt)).1
  have hg₁ : g₁.WellFormed := hgrown.wellFormed
  have hb₁ : b < g₁.size := Nat.lt_of_lt_of_le (Nat.lt_trans hb hlt) hgrown.extension.size_le
  have hda : g₁.nodes.toList = g.nodes.toList ++ g.block a :=
    nodes_derive hg (Nat.lt_trans ha hlt)
  have hdb := nodes_derive hg₁ hb₁
  have hsize : (g₁.derive b).1.size = g.size + (g.block a).length + (g₁.block b).length := by
    rw [size_derive hg₁ hb₁, size_derive hg (Nat.lt_trans ha hlt)]
  refine block_eq_of_nodes_eq ?_
  rw [derive_of_binary hg hr, nodes_addRule, hdb, hda, hsize, List.append_assoc,
    List.append_assoc, List.append_assoc]

/-- As many nodes are added as the kinds of the nodes of the expression tell. -/
theorem length_block (hg : g.WellFormed) (hlt : root < g.size) :
    (g.block root).length = ((g.unfold root).kinds.map Kind.cost).sum := by
  induction root using Nat.strongRecOn generalizing g with
  | ind root ih =>
    obtain ⟨node, hr⟩ := exists_getElem? hlt
    rw [unfold_of_getElem? hg hr]
    cases node with
    | constant value =>
      rw [block_eq_of_nodes_eq (by rw [derive_of_constant hr, nodes_add])]
      rfl
    | var =>
      rw [block_eq_of_nodes_eq (by rw [derive_of_var hr, nodes_add])]
      rfl
    | negate a =>
      have ha : a < root := hg root _ hr a (by simp [Node.operands])
      rw [block_of_negate hg hr, List.length_append, ih a ha hg (Nat.lt_trans ha hlt)]
      simp [Node.map, Node.toExpr, Expr.kinds, Kind.cost]
    | binary op a b =>
      have ha : a < root := hg root _ hr a (by simp [Node.operands])
      have hb : b < root := hg root _ hr b (by simp [Node.operands])
      -- The right operand is derived in the graph the left one has left behind, where it is
      -- still what it was.
      have hgrown := (derive_grown_isDerivative hg (Nat.lt_trans ha hlt)).1
      have hle := hgrown.extension.size_le
      have hright : ((g.derive a).1.block b).length =
          ((g.unfold b).kinds.map Kind.cost).sum := by
        rw [ih b hb hgrown.wellFormed (by omega), hgrown.extension.unfold_eq (by omega)]
      rw [block_of_binary hg hr, List.length_append, List.length_append,
        ih a ha hg (Nat.lt_trans ha hlt), hright, Operator.length_rule]
      simp [Node.map, Node.toExpr, Expr.kinds, Nat.add_assoc]

/-! ## The size of a derivative -/

theorem unfold_derive (hg : g.WellFormed) (hlt : root < g.size) :
    (g.derive root).1.unfold (g.derive root).2 = (g.unfold root).derivative :=
  Formula.toExpr_derivative (f := ⟨g, root⟩) ⟨hg, hlt⟩

theorem depth_derive_le (hg : g.WellFormed) (hlt : root < g.size) :
    (g.derive root).1.depth (g.derive root).2 ≤ 3 * g.depth root - 2 := by
  obtain ⟨hd, -⟩ := derive_grown_isDerivative hg hlt
  rw [depth_eq hd.wellFormed hd.lt_size, unfold_derive hg hlt, depth_eq hg hlt]
  exact Nat.le_sub_of_add_le (g.unfold root).depth_derivative_le

theorem size_unfold_derive_le (hg : g.WellFormed) (hlt : root < g.size) :
    ((g.derive root).1.unfold (g.derive root).2).size ≤
      3 * (g.unfold root).size * g.depth root := by
  rw [unfold_derive hg hlt, depth_eq hg hlt]
  exact (g.unfold root).size_derivative_le

end Graph

namespace Formula

variable {f : Formula}

/-- A formula that has been read is not too deep. -/
theorem depth_le_of_parse {line : String} (h : parse line = .ok f) : f.depth ≤ maxDepth := by
  obtain ⟨e, he, rfl⟩ := exists_of_parse h
  have hf := ofExpr_wellFormed e
  rw [depth, Graph.depth_eq hf.graph hf.root]
  exact (congrArg Expr.depth (toExpr_ofExpr e)).trans_le (Expr.depth_le_of_parse he)

/-- The derivative of a formula that has been read has at most 1534 levels. -/
theorem depth_derivative_le_of_parse {line : String} (h : parse line = .ok f) :
    f.derivative.depth ≤ 1534 := by
  have hf := wellFormed_of_parse h
  have hdepth : f.graph.depth f.root ≤ 512 := depth_le_of_parse h
  have hle : f.derivative.depth ≤ 3 * f.graph.depth f.root - 2 :=
    Graph.depth_derive_le hf.graph hf.root
  omega

/-- So visits to the derivative, be it for a pass or to derive it once more, go no deeper. -/
theorem visit?_derivative_of_parse {α : Type} [Inhabited α] {line : String}
    (h : parse line = .ok f) (join : Node α → α) :
    f.derivative.graph.visit? join 1534 f.derivative.root =
      some (f.derivative.graph.fold join f.derivative.root) :=
  have hf := derivative_wellFormed (wellFormed_of_parse h)
  Graph.visit?_of_depth_le join hf.graph hf.root (depth_derivative_le_of_parse h)

theorem derive?_derivative_of_parse {line : String} (h : parse line = .ok f) :
    Graph.derive? 1534 f.derivative.graph f.derivative.root =
      some (f.derivative.graph.derive f.derivative.root) :=
  have hf := derivative_wellFormed (wellFormed_of_parse h)
  Graph.derive?_of_depth_le hf.graph hf.root (depth_derivative_le_of_parse h)

/-- The code of the derivative has at most 1536 commands for each node of the formula. -/
theorem length_commands_derivative_le {line : String} (h : parse line = .ok f) (x : Float) :
    (f.derivative.commands x).length ≤ 3 * maxDepth * f.toExpr.size := by
  have hf := wellFormed_of_parse h
  have hle : f.derivative.toExpr.size ≤ 3 * f.toExpr.size * f.depth :=
    Graph.size_unfold_derive_le hf.graph hf.root
  rw [commands_eq, Expr.length_commands]
  calc f.derivative.toExpr.size ≤ 3 * f.toExpr.size * f.depth := hle
    _ ≤ 3 * f.toExpr.size * maxDepth := Nat.mul_le_mul_left _ (depth_le_of_parse h)
    _ = 3 * maxDepth * f.toExpr.size := Nat.mul_right_comm _ _ _

end Formula

/-- Deriving adds a node for each leaf, negation, sum and difference that occurs in the
    expression, three for each product and five for each quotient, the root being the last; those
    for an operator are those for its left operand, for its right one, and of its rule. The
    derivative is bounded by the size and the depth of the expression. So no recursion over the
    derivative of a line goes deeper than 1534 levels, and its code is no longer than 1536
    commands for each node of the line. -/
theorem Graph.derive_growth {g : Graph} (hg : g.WellFormed) {root : Nat} (hlt : root < g.size) :
    let e := g.unfold root
    let g' := (g.derive root).1
    let d := (g.derive root).2
    g'.nodes.toList = g.nodes.toList ++ g.block root ∧
    (g.block root).length = e.kinds.count .leaf + e.kinds.count .negation + e.kinds.count .sum +
      3 * e.kinds.count .product + 5 * e.kinds.count .quotient ∧
    e.kinds.length = e.size ∧
    d + 1 = g'.size ∧
    (∀ op a b, g.nodes[root]? = some (.binary op a b) →
      let g₁ := (g.derive a).1
      g.block root = g.block a ++ g₁.block b ++ op.rule a b (g.derive a).2 (g₁.derive b).2
        (g.size + (g.block a).length + (g₁.block b).length)) ∧
    g'.depth d ≤ 3 * g.depth root - 2 ∧
    (g'.unfold d).size ≤ 3 * e.size * g.depth root ∧
    ∀ line f, Formula.parse line = .ok f →
      let f' := f.derivative
      (∀ (α : Type) [Inhabited α] (join : Node α → α),
        f'.graph.visit? join 1534 f'.root = some (f'.graph.fold join f'.root)) ∧
      Graph.derive? 1534 f'.graph f'.root = some (f'.graph.derive f'.root) ∧
      ∀ x, (f'.commands x).length ≤ 3 * 512 * f.toExpr.size := by
  refine ⟨nodes_derive hg hlt, ?_, Expr.length_kinds _, root_derive hg hlt,
    fun op a b hr => block_of_binary hg hr, depth_derive_le hg hlt, size_unfold_derive_le hg hlt,
    fun line f h => ⟨fun α _ join => Formula.visit?_derivative_of_parse h join,
      Formula.derive?_derivative_of_parse h, Formula.length_commands_derivative_le h⟩⟩
  rw [length_block hg hlt, Kind.sum_cost]

/-- A quotient that shares an operand, and a line with the same expression. -/
theorem Graph.derive_growth_quotient :
    let g : Graph := ⟨#[.var, .constant 1.0, .binary .sub 1 0, .binary .div 0 2]⟩
    let line := "x / (1 - x)\n"
    g.WellFormed ∧ 3 < g.size ∧ (g.derive 3).1.size = g.size + 9 ∧ (g.derive 3).2 = 12 ∧
      ∃ f, Formula.parse line = .ok f ∧
        derive? 1534 f.derivative.graph f.derivative.root =
          some (f.derivative.graph.derive f.derivative.root) := by
  intro g line
  have hg : g.WellFormed := by decide
  have hlt : 3 < g.size := by decide
  obtain ⟨hnodes, hlength, -, hroot, -, -, -, hline⟩ := derive_growth hg hlt
  have hkinds : (g.unfold 3).kinds = [.leaf, .leaf, .leaf, .sum, .quotient] := by decide +kernel
  have hblock : (g.block 3).length = 9 := by
    rw [hlength, hkinds]
    rfl
  have hsize : (g.derive 3).1.size = g.size + 9 := by
    rw [size, ← Array.length_toList, hnodes, List.length_append, hblock]
    rfl
  have hparse : Expr.parse line = .ok (.binary .div .var (.binary .sub (.constant 1.0) .var)) := by
    decide +kernel
  have hf := Formula.parse_of_parse hparse
  refine ⟨hg, hlt, hsize, ?_, _, hf, (hline line _ hf).2.1⟩
  rw [hsize] at hroot
  exact Nat.succ.inj hroot

end Derivatives
