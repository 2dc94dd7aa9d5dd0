import Derivatives.Graph

/-!
# Derivatives in a graph

The derivative of the expression at a place, appended to the graph
(`Graph.derive`). The rules refer to the operands of a node where they are: they
are shared with the expression, not copied. The new nodes come in the order of
the rules, those of the left operand's derivative first, then those of the
right one's, then those of the rule itself.
-/

namespace Derivatives.Graph

/-- Appends the nodes that the rule of an operator adds to the derivatives `da`
    and `db` of its operands `a` and `b`. -/
def addRule (g : Graph) (op : Operator) (a b da db : Nat) : Graph × Nat :=
  match op with
  | .add | .sub => g.add (.binary op da db)
  | .mul =>
    let (g, aDb) := g.add (.binary .mul a db)
    let (g, bDa) := g.add (.binary .mul b da)
    g.add (.binary .add aDb bDa)
  | .div =>
    let (g, aDb) := g.add (.binary .mul a db)
    let (g, bDa) := g.add (.binary .mul b da)
    let (g, numerator) := g.add (.binary .sub bDa aDb)
    let (g, denominator) := g.add (.binary .mul b b)
    g.add (.binary .div numerator denominator)

/-- Appends the derivative of the expression at a place; the place of its root.
    What stands at no place, or refers to an operand that does not stand before
    it, is taken for a number. -/
def derive (g : Graph) (root : Nat) : Graph × Nat :=
  match g.nodes[root]? with
  | some .var => g.add (.constant 1.0)
  | some (.negate a) =>
    if a < root then
      let (g, da) := g.derive a
      g.add (.negate da)
    else g.add (.constant 0.0)
  | some (.binary op a b) =>
    if a < root ∧ b < root then
      let (g, da) := g.derive a
      let (g, db) := g.derive b
      g.addRule op a b da db
    else g.add (.constant 0.0)
  | some (.constant _) | none => g.add (.constant 0.0)
termination_by root

/-- Appends the derivatives of the expressions at several places, one after the
    other; the places of their roots. -/
def deriveAll (g : Graph) : List Nat → Graph × List Nat
  | [] => (g, [])
  | root :: roots =>
    let (g, d) := g.derive root
    let (g, ds) := g.deriveAll roots
    (g, d :: ds)

end Derivatives.Graph
