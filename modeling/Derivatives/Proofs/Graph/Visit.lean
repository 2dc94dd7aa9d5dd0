import Derivatives.Proofs.Graph.Derivative
import Derivatives.Proofs.StackCode

/-!
# Visits to a graph

A visit looks up the node at a place and then visits its operands, and so on; a pass
looks up the values of the operands among those of the nodes it has come by; and
deriving visits places while it adds nodes. Here, each of them fails when it comes to a
place that is not there, and the first and the last also when they go deeper than a
given number of levels (`Graph.visit?`, `Graph.sweep?`, `Graph.derive?`).

In a well-formed graph, they do not fail: a visit to a place goes no deeper than the
expression there is (`visit?_of_depth_le`, `derive?_of_depth_le`), hence no deeper than the
place is far from the start, and gives what the pass does (`visit?_eq_some`,
`sweep?_eq_some`, `derive?_eq_some`). So evaluating, printing and generating code by
visits agree with doing so for the expression at the place (`Graph.Visitable`).
-/

namespace Derivatives

/-! ## Nodes -/

namespace Node

variable {α β : Type}

/-- A node with every operand replaced, if each can be. -/
def mapM? (f : α → Option β) : Node α → Option (Node β)
  | constant value => some (.constant value)
  | var => some .var
  | binary op left right => do
    let left ← f left
    let right ← f right
    return .binary op left right
  | negate operand => do
    let operand ← f operand
    return .negate operand

theorem mapM?_eq_some {node : Node α} {f : α → Option β} {f' : α → β}
    (h : ∀ a ∈ node.operands, f a = some (f' a)) : node.mapM? f = some (node.map f') := by
  cases node <;> simp_all [mapM?, map, operands]

/-- The infix form of a node, from those of its operands. -/
def render : Node String → String
  | constant value => Number.display value
  | var => "X"
  | binary op left right => "( " ++ left ++ " " ++ op.symbol.toString ++ " " ++ right ++ " )"
  | negate operand => "( -" ++ operand ++ " )"

theorem render_toExpr (node : Node Expr) : node.toExpr.render = (node.map Expr.render).render := by
  cases node <;> rfl

/-- The code of a node, from those of its operands. -/
def commands (x : Float) : Node (List Command) → List Command
  | constant value => [.push value]
  | var => [.value x]
  | binary op left right => left ++ right ++ [.operator op]
  | negate operand => operand ++ [.unaryMinus]

theorem commands_toExpr (x : Float) (node : Node Expr) :
    node.toExpr.commands x = (node.map (Expr.commands x)).commands x := by
  cases node <;> simp [toExpr, map, commands]

end Node

namespace Graph

variable {α : Type} {g : Graph} {place root levels : Nat}

/-! ## Visits -/

theorem depth_pos (hg : g.WellFormed) (hlt : place < g.size) : 0 < g.depth place := by
  rw [depth_eq hg hlt]
  exact Expr.depth_pos _

/-- What a visit to a place gives, if it only comes to places that are there, and goes
    at most the given number of levels deep. -/
def visit? (join : Node α → α) (g : Graph) : Nat → Nat → Option α
  | 0, _ => none
  | levels + 1, place => do
    let node ← g.nodes[place]?
    let node ← node.mapM? (g.visit? join levels)
    return join node

/-- A visit goes no deeper than the expression at the place is. -/
theorem visit?_of_depth_le [Inhabited α] (join : Node α → α) (hg : g.WellFormed)
    (hlt : place < g.size) (hlevels : g.depth place ≤ levels) :
    g.visit? join levels place = some (g.fold join place) := by
  induction levels generalizing place with
  | zero => exact absurd (depth_pos hg hlt) (Nat.not_lt.2 hlevels)
  | succ levels ih =>
    obtain ⟨node, hn⟩ := exists_getElem? hlt
    have hoperands : node.mapM? (g.visit? join levels) = some (node.map (g.fold join)) := by
      refine Node.mapM?_eq_some fun a ha => ih (Nat.lt_trans (hg place node hn a ha) hlt) ?_
      have := depth_lt_of_mem_operands hg hn ha
      omega
    rw [visit?, hn, fold_of_getElem? join hg hn, Option.bind_eq_bind, Option.bind_some, hoperands]
    rfl

/-- A visit goes no deeper than the place is far from the start. -/
theorem visit?_eq_some [Inhabited α] (join : Node α → α) (hg : g.WellFormed) (hlt : place < g.size)
    (hlevels : place < levels) : g.visit? join levels place = some (g.fold join place) :=
  visit?_of_depth_le join hg hlt (Nat.le_trans (depth_le hg hlt) hlevels)

/-! ## Passes -/

/-- The values that a pass gives to the nodes before the place `n`, if it only looks up
    those it has given before. -/
def sweep? (join : Node α → α) (g : Graph) : Nat → Option (Array α)
  | 0 => some #[]
  | n + 1 => do
    let done ← g.sweep? join n
    let node ← g.nodes[n]?
    let node ← node.mapM? (done[·]?)
    return done.push (join node)

/-- The value that a pass gives to a place. -/
def fold? (join : Node α → α) (g : Graph) (root : Nat) : Option α := do
  let done ← g.sweep? join (root + 1)
  done[root]?

theorem getElem?_sweep [Inhabited α] (join : Node α → α) {n : Nat} (hlt : place < n)
    (hn : n ≤ g.size) : (g.sweep join n)[place]? = some (g.fold join place) := by
  have hsize := size_sweep join hn
  rw [← getD_sweep join hlt hn, Array.getD_eq_getD_getElem?, Array.getElem?_eq_getElem (by omega),
    Option.getD_some]

theorem sweep?_eq_some [Inhabited α] (join : Node α → α) (hg : g.WellFormed) {n : Nat}
    (hn : n ≤ g.size) : g.sweep? join n = some (g.sweep join n) := by
  induction n with
  | zero => simp [sweep?, sweep]
  | succ n ih =>
    obtain ⟨node, hnode⟩ := exists_getElem? hn
    have hle := Nat.le_of_succ_le hn
    have hoperands : node.mapM? ((g.sweep join n)[·]?) =
        some (node.map ((g.sweep join n).getD · default)) := by
      refine Node.mapM?_eq_some fun a ha => ?_
      have ha := hg n node hnode a ha
      rw [getElem?_sweep join ha hle, getD_sweep join ha hle]
    rw [sweep?, ih hle, hnode, sweep_succ join hnode, Option.bind_eq_bind, Option.bind_some,
      Option.bind_eq_bind, Option.bind_some, hoperands]
    rfl

theorem fold?_eq_some [Inhabited α] (join : Node α → α) (hg : g.WellFormed) (hlt : root < g.size) :
    g.fold? join root = some (g.fold join root) := by
  rw [fold?, sweep?_eq_some join hg hlt]
  exact getElem?_sweep join (Nat.lt_succ_self root) hlt

/-! ## Derivatives -/

/-- The graph with one more node, if the operands of the node stand in it. -/
def add? (g : Graph) (node : Node Nat) : Option (Graph × Nat) :=
  if ∀ a ∈ node.operands, a < g.size then some (g.add node) else none

/-- The rule of an operator, if the operands of each node stand before it. -/
def addRule? (g : Graph) (op : Operator) (a b da db : Nat) : Option (Graph × Nat) :=
  match op with
  | .add | .sub => g.add? (.binary op da db)
  | .mul => do
    let (g, aDb) ← g.add? (.binary .mul a db)
    let (g, bDa) ← g.add? (.binary .mul b da)
    g.add? (.binary .add aDb bDa)
  | .div => do
    let (g, aDb) ← g.add? (.binary .mul a db)
    let (g, bDa) ← g.add? (.binary .mul b da)
    let (g, numerator) ← g.add? (.binary .sub bDa aDb)
    let (g, denominator) ← g.add? (.binary .mul b b)
    g.add? (.binary .div numerator denominator)

/-- The derivative of the expression at a place, if deriving it only comes to places
    that are there, and goes at most the given number of levels deep. -/
def derive? : Nat → Graph → Nat → Option (Graph × Nat)
  | 0, _, _ => none
  | levels + 1, g, root => do
    match ← g.nodes[root]? with
    | .constant _ => g.add? (.constant 0.0)
    | .var => g.add? (.constant 1.0)
    | .negate a =>
      let (g, da) ← derive? levels g a
      g.add? (.negate da)
    | .binary op a b =>
      let (g, da) ← derive? levels g a
      let (g, db) ← derive? levels g b
      g.addRule? op a b da db

theorem add?_eq_some {node : Node Nat} (h : ∀ a ∈ node.operands, a < g.size) :
    g.add? node = some (g.add node) := if_pos h

theorem add?_binary_eq_some (op : Operator) {a b : Nat} (ha : a < g.size) (hb : b < g.size) :
    g.add? (.binary op a b) = some (g.add (.binary op a b)) :=
  add?_eq_some (by simp [Node.operands, ha, hb])

theorem addRule?_eq_some (op : Operator) {a b da db : Nat} (ha : a < g.size) (hb : b < g.size)
    (hda : da < g.size) (hdb : db < g.size) :
    g.addRule? op a b da db = some (g.addRule op a b da db) := by
  cases op with
  | add | sub => exact add?_binary_eq_some _ hda hdb
  -- Each node refers to the operands, to their derivatives and to the nodes in front of it.
  | mul =>
    let g₁ := (g.add (.binary .mul a db)).1
    let g₂ := (g₁.add (.binary .mul b da)).1
    have h₁ : g₁.size = g.size + 1 := size_add _ _
    have h₂ : g₂.size = g₁.size + 1 := size_add _ _
    have haDb : g.add? (.binary .mul a db) = some (g₁, g.size) := add?_binary_eq_some .mul ha hdb
    have hbDa : g₁.add? (.binary .mul b da) = some (g₂, g₁.size) :=
      add?_binary_eq_some .mul (by omega) (by omega)
    have hsum : g₂.add? (.binary .add g.size g₁.size) =
        some (g₂.add (.binary .add g.size g₁.size)) :=
      add?_binary_eq_some .add (by omega) (by omega)
    simp only [addRule?, haDb, hbDa, hsum, Option.bind_eq_bind, Option.bind_some]
    rfl
  | div =>
    let g₁ := (g.add (.binary .mul a db)).1
    let g₂ := (g₁.add (.binary .mul b da)).1
    let g₃ := (g₂.add (.binary .sub g₁.size g.size)).1
    let g₄ := (g₃.add (.binary .mul b b)).1
    have h₁ : g₁.size = g.size + 1 := size_add _ _
    have h₂ : g₂.size = g₁.size + 1 := size_add _ _
    have h₃ : g₃.size = g₂.size + 1 := size_add _ _
    have h₄ : g₄.size = g₃.size + 1 := size_add _ _
    have haDb : g.add? (.binary .mul a db) = some (g₁, g.size) := add?_binary_eq_some .mul ha hdb
    have hbDa : g₁.add? (.binary .mul b da) = some (g₂, g₁.size) :=
      add?_binary_eq_some .mul (by omega) (by omega)
    have hnumerator : g₂.add? (.binary .sub g₁.size g.size) = some (g₃, g₂.size) :=
      add?_binary_eq_some .sub (by omega) (by omega)
    have hdenominator : g₃.add? (.binary .mul b b) = some (g₄, g₃.size) :=
      add?_binary_eq_some .mul (by omega) (by omega)
    have hquotient : g₄.add? (.binary .div g₂.size g₃.size) =
        some (g₄.add (.binary .div g₂.size g₃.size)) :=
      add?_binary_eq_some .div (by omega) (by omega)
    simp only [addRule?, haDb, hbDa, hnumerator, hdenominator, hquotient, Option.bind_eq_bind,
      Option.bind_some]
    rfl

/-- Deriving goes no deeper than the expression at the place is. -/
theorem derive?_of_depth_le (hg : g.WellFormed) (hlt : root < g.size)
    (hlevels : g.depth root ≤ levels) : derive? levels g root = some (g.derive root) := by
  induction levels generalizing g root with
  | zero => exact absurd (depth_pos hg hlt) (Nat.not_lt.2 hlevels)
  | succ levels ih =>
    obtain ⟨node, hn⟩ := exists_getElem? hlt
    rw [derive?, hn, Option.bind_eq_bind, Option.bind_some]
    cases node with
    | constant value =>
      rw [derive_of_constant hn]
      exact add?_eq_some (by simp [Node.operands])
    | var =>
      rw [derive_of_var hn]
      exact add?_eq_some (by simp [Node.operands])
    | negate a =>
      have ha : a < root := hg root _ hn a (by simp [Node.operands])
      have hdepth : g.depth a < g.depth root :=
        depth_lt_of_mem_operands hg hn (by simp [Node.operands])
      have hda := (derive_grown_isDerivative hg (Nat.lt_trans ha hlt)).1
      rw [derive_of_negate hg hn]
      simp only [ih hg (Nat.lt_trans ha hlt) (by omega), Option.bind_eq_bind, Option.bind_some]
      exact add?_eq_some (by simp [Node.operands, hda.lt_size])
    | binary op a b =>
      have ha : a < root := hg root _ hn a (by simp [Node.operands])
      have hb : b < root := hg root _ hn b (by simp [Node.operands])
      have hdepth : g.depth a < g.depth root :=
        depth_lt_of_mem_operands hg hn (by simp [Node.operands])
      have hdepth' : g.depth b < g.depth root :=
        depth_lt_of_mem_operands hg hn (by simp [Node.operands])
      -- The right operand is visited in the graph that deriving the left one leaves behind.
      have hda := (derive_grown_isDerivative hg (Nat.lt_trans ha hlt)).1
      have hle := hda.extension.size_le
      have hdb : (g.derive a).1.Grown ((g.derive a).1.derive b) :=
        (derive_grown_isDerivative hda.wellFormed (by omega)).1
      have hle' := hdb.extension.size_le
      have hlt' := hda.lt_size
      have hkept : (g.derive a).1.depth b = g.depth b := hda.extension.fold_eq _ (by omega)
      have hleft : derive? levels g a = some (g.derive a) := ih hg (by omega) (by omega)
      have hright : derive? levels (g.derive a).1 b = some ((g.derive a).1.derive b) :=
        ih hda.wellFormed (by omega) (by omega)
      have ha' : a < ((g.derive a).1.derive b).1.size := by omega
      have hb' : b < ((g.derive a).1.derive b).1.size := by omega
      have hda' : (g.derive a).2 < ((g.derive a).1.derive b).1.size := by omega
      rw [derive_of_binary hg hn]
      simp only [hleft, hright, Option.bind_eq_bind, Option.bind_some]
      exact addRule?_eq_some op ha' hb' hda' hdb.lt_size

/-- Deriving goes no deeper than the place is far from the start. -/
theorem derive?_eq_some (hg : g.WellFormed) (hlt : root < g.size) (hlevels : root < levels) :
    derive? levels g root = some (g.derive root) :=
  derive?_of_depth_le hg hlt (Nat.le_trans (depth_le hg hlt) hlevels)

/-! ## All visits to a place -/

/-- The visits to a place, and the passes up to it, do not fail, and give what the
    expression at the place does. -/
structure Visitable (g : Graph) (place : Nat) : Prop where
  eval : ∀ x, g.visit? (Node.eval x) (place + 1) place = some ((g.unfold place).eval x)
  render : g.visit? Node.render (place + 1) place = some (g.unfold place).render
  commands : ∀ x, g.visit? (Node.commands x) (place + 1) place = some (g.commands x [place])
  nodeCount : g.fold? (Node.measure fun a b => min (a + b + 1) countLimit) place =
    some (g.nodeCount place)
  depth : g.fold? (Node.measure fun a b => max a b + 1) place = some (g.depth place)
  derive : derive? (place + 1) g place = some (g.derive place)

theorem WellFormed.visitable (hg : g.WellFormed) (hlt : place < g.size) : g.Visitable place where
  eval x := by
    rw [visit?_eq_some _ hg hlt (Nat.lt_succ_self place), fold_eq (Node.eval_toExpr x) hg hlt]
  render := by
    rw [visit?_eq_some _ hg hlt (Nat.lt_succ_self place), fold_eq Node.render_toExpr hg hlt]
  commands x := by
    rw [visit?_eq_some _ hg hlt (Nat.lt_succ_self place), fold_eq (Node.commands_toExpr x) hg hlt,
      commands_singleton]
  nodeCount := fold?_eq_some _ hg hlt
  depth := fold?_eq_some _ hg hlt
  derive := derive?_eq_some hg hlt (Nat.lt_succ_self place)

end Graph

end Derivatives
