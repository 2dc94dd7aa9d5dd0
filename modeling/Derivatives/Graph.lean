import Derivatives.Expr

/-!
# Expression graphs

A graph holds the nodes of expressions in one sequence, each node referring to
its operands by their place in it. Nodes are only ever appended, and an operand
stands before the node it belongs to (`Graph.WellFormed`), so a place names the
same expression forever, and an operand can be shared by many nodes.

As operands come first, one pass in order computes a value for every node from
the values of its operands (`Graph.sweep`). Such passes give the expression a
place stands for (`Graph.unfold`) and its measures (`Graph.nodeCount`,
`Graph.depth`), which are found without walking the expression: with sharing, it
may be far larger than the graph.
-/

namespace Derivatives

/-- A node of an expression, over operands of type `α`. -/
inductive Node (α : Type)
  /-- A number. -/
  | constant (value : Float)
  /-- The variable. -/
  | var
  /-- Two operands joined by an operator. -/
  | binary (op : Operator) (left right : α)
  /-- The negation of an operand. -/
  | negate (operand : α)
  deriving BEq

namespace Node

variable {α β : Type}

/-- A node with every operand replaced. -/
def map (f : α → β) : Node α → Node β
  | constant value => .constant value
  | var => .var
  | binary op left right => .binary op (f left) (f right)
  | negate operand => .negate (f operand)

/-- The operands of a node, from left to right. -/
def operands : Node α → List α
  | constant _ | var => []
  | binary _ left right => [left, right]
  | negate operand => [operand]

/-- The expression with a given root and operands. -/
def toExpr : Node Expr → Expr
  | constant value => .constant value
  | var => .var
  | binary op left right => .binary op left right
  | negate operand => .negate operand

/-- A measure of a node: one for a leaf, and otherwise what `join` makes of the
    measures of the operands, a missing one counting zero. -/
def measure (join : Nat → Nat → Nat) : Node Nat → Nat
  | constant _ | var => 1
  | binary _ left right => join left right
  | negate operand => join operand 0

end Node

/-- Nodes of expressions, operands being given by their place. -/
structure Graph where
  /-- The nodes, in order. -/
  nodes : Array (Node Nat) := #[]
  deriving BEq

namespace Graph

/-- The number of nodes. -/
def size (g : Graph) : Nat := g.nodes.size

/-- Every operand stands before the node it belongs to. -/
def WellFormed (g : Graph) : Prop :=
  ∀ (i : Nat) (node : Node Nat), g.nodes[i]? = some node → ∀ j ∈ node.operands, j < i

/-- The graph with one more node, and the place of that node. -/
def add (g : Graph) (node : Node Nat) : Graph × Nat := (⟨g.nodes.push node⟩, g.size)

/-- Appends the nodes of an expression in post-order; the place of its root. -/
def addExpr (g : Graph) : Expr → Graph × Nat
  | .constant value => g.add (.constant value)
  | .var => g.add .var
  | .binary op left right =>
    let (g, l) := g.addExpr left
    let (g, r) := g.addExpr right
    g.add (.binary op l r)
  | .negate operand =>
    let (g, a) := g.addExpr operand
    g.add (.negate a)

/-! ## Passes over the nodes -/

variable {α : Type}

/-- The values of the nodes before the place `n`, each made by `join` from the
    values of its operands. -/
def sweep [Inhabited α] (join : Node α → α) (g : Graph) (n : Nat) : Array α :=
  (g.nodes.take n).foldl (fun done node => done.push (join (node.map (done.getD · default)))) #[]

/-- The value a pass gives to the node at a place. -/
def fold [Inhabited α] (join : Node α → α) (g : Graph) (root : Nat) : α :=
  (g.sweep join (root + 1)).getD root default

/-- The expression at a place. -/
def unfold (g : Graph) (root : Nat) : Expr := g.fold Node.toExpr root

/-- The largest number a node count can show: that of a word of 64 bits. -/
def countLimit : Nat := 18446744073709551615

/-- The number of nodes of the expression at a place, a shared operand counting
    every time it occurs; at most `countLimit`. -/
def nodeCount (g : Graph) (root : Nat) : Nat :=
  g.fold (Node.measure fun a b => min (a + b + 1) countLimit) root

/-- The number of levels of the expression at a place. -/
def depth (g : Graph) (root : Nat) : Nat := g.fold (Node.measure fun a b => max a b + 1) root

/-! ## Reachable nodes -/

/-- Marks the operands of the nodes before the place `n` that are marked, the
    last node first: their own operands are still to come. -/
def markBelow (g : Graph) : Nat → Array Bool → Array Bool
  | 0, marked => marked
  | i + 1, marked =>
    let operands := if marked.getD i false then (g.nodes[i]?.elim [] Node.operands) else []
    g.markBelow i (operands.foldl (fun marked j => marked.setIfInBounds j true) marked)

/-- The places that the expression at a place is made of, in ascending order. -/
def reachable (g : Graph) (root : Nat) : List Nat :=
  let unmarked := Array.replicate (root + 1) false
  let marked := g.markBelow (root + 1) (unmarked.setIfInBounds root true)
  (List.range (root + 1)).filter fun i => marked.getD i false

end Graph

end Derivatives
