import Derivatives.Expr.Infix
import Derivatives.Expr.Reading
import Derivatives.Graph.Derivative
import Derivatives.StackCode.Machine

/-!
# Formulas

A formula is a place in a graph of its own: an expression together with what it
shares its nodes with. Its derivative (`Formula.derivative`) stands in the same
graph, grown, so a formula can be derived again and again while its graph stays
small. All that is asked of a formula is asked of the expression it stands for
(`Formula.toExpr`), but for its measures, which its graph gives.

Two formulas are compared as they are laid out, graph and root, unreachable
nodes included; numbers are compared as such, so that zero equals its negative
and what is no number equals nothing.
-/

namespace Derivatives

/-- The stack code of the expressions at several places, one after the other. -/
def Graph.commands (g : Graph) (x : Float) (places : List Nat) : List Command :=
  places.flatMap fun place => (g.unfold place).commands x

/-- An expression in a graph. -/
structure Formula where
  /-- The nodes. -/
  graph : Graph
  /-- The place of the expression. -/
  root : Nat
  deriving BEq

namespace Formula

/-- The formula whose graph holds the nodes of an expression, in post-order, and
    nothing else. -/
def ofExpr (e : Expr) : Formula :=
  let (graph, root) := Graph.addExpr {} e
  ⟨graph, root⟩

/-- The formula on a line. -/
def parse (line : String) : Except Error Formula := (Expr.parse line).map ofExpr

/-- The expression a formula stands for. -/
def toExpr (f : Formula) : Expr := f.graph.unfold f.root

/-- The derivative of a formula, in the same graph, which it makes grow. -/
def derivative (f : Formula) : Formula :=
  let (graph, root) := f.graph.derive f.root
  ⟨graph, root⟩

/-- The value of a formula at `x`. -/
def eval (f : Formula) (x : Float) : Float := f.toExpr.eval x

/-- The infix form of a formula. -/
def render (f : Formula) : String := f.toExpr.render

/-- The stack code of a formula, for the value `x` of the variable. -/
def commands (f : Formula) (x : Float) : List Command := f.graph.commands x [f.root]

/-- What a new stack machine computes from the code of a formula. -/
def execute (f : Formula) (x : Float) : Except Error Float :=
  (Machine.execute {} (f.commands x)).1

/-- The number of nodes of the expression, at most `Graph.countLimit`. -/
def nodeCount (f : Formula) : Nat := f.graph.nodeCount f.root

/-- The number of levels of the expression. -/
def depth (f : Formula) : Nat := f.graph.depth f.root

end Formula

end Derivatives
