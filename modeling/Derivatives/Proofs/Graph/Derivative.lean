import Derivatives.Expr.Derivative
import Derivatives.Graph.Derivative
import Derivatives.Proofs.Graph
import Mathlib.Data.List.Forall2

/-!
# Derivatives in a graph are derivatives of expressions

How the rules lay out a derivative in a graph is a relation between places
(`IsDerivative`): the nodes of a rule refer to the operands of the node they
derive at their own places, and to the derivatives of these operands. It holds
of the places that `Graph.derive` relates (`derive_grown_isDerivative`), it
survives the growth of the graph (`IsDerivative.mono`), and of a well-formed graph
it says that one expression is the derivative of the other
(`IsDerivative.unfold_eq`). So deriving places in turn is what deriving their
expressions is (`deriveAll_refines_derivative`).

Places derived in turn may be places of the graph, or of what was derived
before (`HoldsInTurn`).
-/

namespace Derivatives.Graph

variable {g g' : Graph} {place root d a b da db : Nat} {roots : List Nat}

/-! ## The layout of a derivative -/

/-- The nodes at `d` and before it are laid out as the derivative of the
    expression at `root`, whose operands they share. -/
inductive IsDerivative (g : Graph) : Nat → Nat → Prop
  | constant {root d : Nat} {value : Float} : g.nodes[root]? = some (.constant value) →
      g.nodes[d]? = some (.constant 0.0) → IsDerivative g root d
  | var {root d : Nat} : g.nodes[root]? = some .var →
      g.nodes[d]? = some (.constant 1.0) → IsDerivative g root d
  | negate {root d a da : Nat} : g.nodes[root]? = some (.negate a) → IsDerivative g a da →
      g.nodes[d]? = some (.negate da) → IsDerivative g root d
  | sum {op : Operator} {root d a b da db : Nat} : op.isAdditive →
      g.nodes[root]? = some (.binary op a b) → IsDerivative g a da → IsDerivative g b db →
      g.nodes[d]? = some (.binary op da db) → IsDerivative g root d
  | product {root d a b da db aDb bDa : Nat} : g.nodes[root]? = some (.binary .mul a b) →
      IsDerivative g a da → IsDerivative g b db →
      g.nodes[aDb]? = some (.binary .mul a db) → g.nodes[bDa]? = some (.binary .mul b da) →
      g.nodes[d]? = some (.binary .add aDb bDa) → IsDerivative g root d
  | quotient {root d a b da db aDb bDa numerator denominator : Nat} :
      g.nodes[root]? = some (.binary .div a b) → IsDerivative g a da → IsDerivative g b db →
      g.nodes[aDb]? = some (.binary .mul a db) → g.nodes[bDa]? = some (.binary .mul b da) →
      g.nodes[numerator]? = some (.binary .sub bDa aDb) →
      g.nodes[denominator]? = some (.binary .mul b b) →
      g.nodes[d]? = some (.binary .div numerator denominator) → IsDerivative g root d

/-- A layout stays what it is when the graph grows. -/
theorem IsDerivative.mono (hd : g.IsDerivative root d) (h : g.Extends g') :
    g'.IsDerivative root d := by
  induction hd with
  | constant hr hd => exact .constant (h.getElem? hr) (h.getElem? hd)
  | var hr hd => exact .var (h.getElem? hr) (h.getElem? hd)
  | negate hr _ hd ih => exact .negate (h.getElem? hr) ih (h.getElem? hd)
  | sum hop hr _ _ hd iha ihb => exact .sum hop (h.getElem? hr) iha ihb (h.getElem? hd)
  | product hr _ _ hadb hbda hd iha ihb =>
    exact .product (h.getElem? hr) iha ihb (h.getElem? hadb) (h.getElem? hbda) (h.getElem? hd)
  | quotient hr _ _ hadb hbda hn hm hd iha ihb =>
    exact .quotient (h.getElem? hr) iha ihb (h.getElem? hadb) (h.getElem? hbda) (h.getElem? hn)
      (h.getElem? hm) (h.getElem? hd)

/-- What is laid out as a derivative is the derivative of the expression. -/
theorem IsDerivative.unfold_eq (hg : g.WellFormed) (hd : g.IsDerivative root d) :
    g.unfold d = (g.unfold root).derivative := by
  induction hd with
  | constant hr hd | var hr hd => rw [unfold_of_getElem? hg hr, unfold_of_getElem? hg hd]; rfl
  | negate hr _ hd ih =>
    rw [unfold_of_getElem? hg hr, unfold_of_getElem? hg hd]
    simp only [Node.map, Node.toExpr, ih, Expr.derivative]
  | @sum op _ _ _ _ _ _ hop hr _ _ hd iha ihb =>
    rw [unfold_of_getElem? hg hr, unfold_of_getElem? hg hd]
    cases op with
    | add | sub => simp only [Node.map, Node.toExpr, iha, ihb, Expr.derivative]
    | mul | div => exact absurd hop Bool.false_ne_true
  | product hr _ _ hadb hbda hd iha ihb =>
    rw [unfold_of_getElem? hg hr, unfold_of_getElem? hg hd]
    simp only [Node.map, Node.toExpr, unfold_of_getElem? hg hadb, unfold_of_getElem? hg hbda,
      iha, ihb, Expr.derivative]
  | quotient hr _ _ hadb hbda hn hm hd iha ihb =>
    rw [unfold_of_getElem? hg hr, unfold_of_getElem? hg hd]
    simp only [Node.map, Node.toExpr, unfold_of_getElem? hg hadb, unfold_of_getElem? hg hbda,
      unfold_of_getElem? hg hn, unfold_of_getElem? hg hm, iha, ihb, Expr.derivative]

/-! ## What deriving does to a graph -/

theorem derive_of_constant {value : Float} (hr : g.nodes[root]? = some (.constant value)) :
    g.derive root = g.add (.constant 0.0) := by
  rw [derive, hr]

theorem derive_of_var (hr : g.nodes[root]? = some .var) :
    g.derive root = g.add (.constant 1.0) := by
  rw [derive, hr]

theorem derive_of_negate (hg : g.WellFormed) (hr : g.nodes[root]? = some (.negate a)) :
    g.derive root = (g.derive a).1.add (.negate (g.derive a).2) := by
  have ha : a < root := hg root _ hr a (by simp [Node.operands])
  rw [derive, hr]
  exact if_pos ha

theorem derive_of_binary {op : Operator} (hg : g.WellFormed)
    (hr : g.nodes[root]? = some (.binary op a b)) :
    g.derive root = ((g.derive a).1.derive b).1.addRule op a b (g.derive a).2
      ((g.derive a).1.derive b).2 := by
  have ha : a < root := hg root _ hr a (by simp [Node.operands])
  have hb : b < root := hg root _ hr b (by simp [Node.operands])
  rw [derive, hr]
  exact if_pos ⟨ha, hb⟩

/-- The nodes of a rule refer to places that are there already. -/
theorem addRule_grown (hg : g.WellFormed) (op : Operator) (ha : a < g.size) (hb : b < g.size)
    (hda : da < g.size) (hdb : db < g.size) : g.Grown (g.addRule op a b da db) := by
  cases op with
  | add | sub => exact hg.add_binary_grown _ hda hdb
  -- Each node refers to places below its own, which the sizes along the way tell.
  | mul =>
    let g₁ := (g.add (.binary .mul a db)).1
    let g₂ := (g₁.add (.binary .mul b da)).1
    have h₁ : g₁.size = g.size + 1 := size_add _ _
    have h₂ : g₂.size = g₁.size + 1 := size_add _ _
    have haDb : g.Grown (g₁, g.size) := hg.add_binary_grown .mul ha hdb
    have hg₁ : g₁.WellFormed := haDb.wellFormed
    have hbDa : g₁.Grown (g₂, g₁.size) := hg₁.add_binary_grown .mul (by omega) (by omega)
    have hg₂ : g₂.WellFormed := hbDa.wellFormed
    have hsum : g₂.Grown (g₂.add (.binary .add g.size g₁.size)) :=
      hg₂.add_binary_grown .add (by omega) (by omega)
    exact (haDb.trans hbDa).trans hsum
  | div =>
    let g₁ := (g.add (.binary .mul a db)).1
    let g₂ := (g₁.add (.binary .mul b da)).1
    let g₃ := (g₂.add (.binary .sub g₁.size g.size)).1
    let g₄ := (g₃.add (.binary .mul b b)).1
    have h₁ : g₁.size = g.size + 1 := size_add _ _
    have h₂ : g₂.size = g₁.size + 1 := size_add _ _
    have h₃ : g₃.size = g₂.size + 1 := size_add _ _
    have h₄ : g₄.size = g₃.size + 1 := size_add _ _
    have haDb : g.Grown (g₁, g.size) := hg.add_binary_grown .mul ha hdb
    have hg₁ : g₁.WellFormed := haDb.wellFormed
    have hbDa : g₁.Grown (g₂, g₁.size) := hg₁.add_binary_grown .mul (by omega) (by omega)
    have hg₂ : g₂.WellFormed := hbDa.wellFormed
    have hnumerator : g₂.Grown (g₃, g₂.size) :=
      hg₂.add_binary_grown .sub (by omega) (by omega)
    have hg₃ : g₃.WellFormed := hnumerator.wellFormed
    have hdenominator : g₃.Grown (g₄, g₃.size) :=
      hg₃.add_binary_grown .mul (by omega) (by omega)
    have hg₄ : g₄.WellFormed := hdenominator.wellFormed
    have hquotient : g₄.Grown (g₄.add (.binary .div g₂.size g₃.size)) :=
      hg₄.add_binary_grown .div (by omega) (by omega)
    exact (((haDb.trans hbDa).trans hnumerator).trans hdenominator).trans hquotient

/-- The nodes of a rule make up a derivative from those of the operands. -/
theorem isDerivative_addRule {op : Operator} (hr : g.nodes[root]? = some (.binary op a b))
    (hda : g.IsDerivative a da) (hdb : g.IsDerivative b db) :
    (g.addRule op a b da db).1.IsDerivative root (g.addRule op a b da db).2 := by
  have hsum (hop : op.isAdditive) : (g.add (.binary op da db)).1.IsDerivative root g.size :=
    have h := extends_add g (.binary op da db)
    .sum hop (h.getElem? hr) (hda.mono h) (hdb.mono h) (getElem?_add _ _)
  cases op with
  | add | sub => exact hsum rfl
  -- Each node keeps its place and its operands while later ones are added.
  | mul =>
    let g₁ := (g.add (.binary .mul a db)).1
    let g₂ := (g₁.add (.binary .mul b da)).1
    have h₃ := extends_add g₂ (.binary .add g.size g₁.size)
    have h₂ := (extends_add g₁ (.binary .mul b da)).trans h₃
    have h := (extends_add g (.binary .mul a db)).trans h₂
    exact .product (h.getElem? hr) (hda.mono h) (hdb.mono h) (h₂.getElem? (getElem?_add _ _))
      (h₃.getElem? (getElem?_add _ _)) (getElem?_add _ _)
  | div =>
    let g₁ := (g.add (.binary .mul a db)).1
    let g₂ := (g₁.add (.binary .mul b da)).1
    let g₃ := (g₂.add (.binary .sub g₁.size g.size)).1
    let g₄ := (g₃.add (.binary .mul b b)).1
    have h₅ := extends_add g₄ (.binary .div g₂.size g₃.size)
    have h₄ := (extends_add g₃ (.binary .mul b b)).trans h₅
    have h₃ := (extends_add g₂ (.binary .sub g₁.size g.size)).trans h₄
    have h₂ := (extends_add g₁ (.binary .mul b da)).trans h₃
    have h := (extends_add g (.binary .mul a db)).trans h₂
    exact .quotient (h.getElem? hr) (hda.mono h) (hdb.mono h) (h₂.getElem? (getElem?_add _ _))
      (h₃.getElem? (getElem?_add _ _)) (h₄.getElem? (getElem?_add _ _))
      (h₅.getElem? (getElem?_add _ _)) (getElem?_add _ _)

/-- Deriving extends a graph by a derivative. -/
theorem derive_grown_isDerivative (hg : g.WellFormed) (hlt : root < g.size) :
    g.Grown (g.derive root) ∧ (g.derive root).1.IsDerivative root (g.derive root).2 := by
  induction root using Nat.strongRecOn generalizing g with
  | ind root ih =>
    obtain ⟨node, hr⟩ := exists_getElem? hlt
    cases node with
    | constant value =>
      rw [derive_of_constant hr]
      exact ⟨hg.add_constant_grown _,
        .constant ((extends_add _ _).getElem? hr) (getElem?_add _ _)⟩
    | var =>
      rw [derive_of_var hr]
      exact ⟨hg.add_constant_grown _, .var ((extends_add _ _).getElem? hr) (getElem?_add _ _)⟩
    | negate a =>
      have ha : a < root := hg root _ hr a (by simp [Node.operands])
      obtain ⟨hda, hd⟩ := ih a ha hg (Nat.lt_trans ha hlt)
      have hadd := extends_add (g.derive a).1 (.negate (g.derive a).2)
      rw [derive_of_negate hg hr]
      exact ⟨hda.trans (hda.wellFormed.add_negate_grown hda.lt_size),
        .negate ((hda.extension.trans hadd).getElem? hr) (hd.mono hadd) (getElem?_add _ _)⟩
    | binary op a b =>
      have ha : a < root := hg root _ hr a (by simp [Node.operands])
      have hb : b < root := hg root _ hr b (by simp [Node.operands])
      -- The right operand is derived in the graph the left one has left behind,
      -- which has kept both operands where they were.
      obtain ⟨hda, hd⟩ := ih a ha hg (Nat.lt_trans ha hlt)
      have hle := hda.extension.size_le
      obtain ⟨hdb, hd'⟩ := ih b hb hda.wellFormed (by omega)
      have hle' := hdb.extension.size_le
      have hlt' := hda.lt_size
      have ha' : a < ((g.derive a).1.derive b).1.size := by omega
      have hb' : b < ((g.derive a).1.derive b).1.size := by omega
      have hda' : (g.derive a).2 < ((g.derive a).1.derive b).1.size := by omega
      have hrule := addRule_grown hdb.wellFormed op ha' hb' hda' hdb.lt_size
      rw [derive_of_binary hg hr]
      exact ⟨(hda.trans hdb).trans hrule,
        isDerivative_addRule (hdb.extension.getElem? (hda.extension.getElem? hr))
          (hd.mono hdb.extension) hd'⟩

/-! ## Several derivatives, one after the other -/

/-- Each of the places stands in the graph by the time its turn comes to be
    derived: it did from the start, or the derivatives before it came with it. -/
def HoldsInTurn (g : Graph) : List Nat → Prop
  | [] => True
  | root :: roots => root < g.size ∧ (g.derive root).1.HoldsInTurn roots

theorem HoldsInTurn.of_lt_size (hg : g.WellFormed) (h : ∀ root ∈ roots, root < g.size) :
    g.HoldsInTurn roots := by
  induction roots generalizing g with
  | nil => trivial
  | cons root roots ih =>
    rw [List.forall_mem_cons] at h
    have hd := (derive_grown_isDerivative hg h.1).1
    exact ⟨h.1, ih hd.wellFormed fun r hr => Nat.lt_of_lt_of_le (h.2 r hr) hd.extension.size_le⟩

theorem deriveAll_cons (g : Graph) (root : Nat) (roots : List Nat) :
    g.deriveAll (root :: roots) = (((g.derive root).1.deriveAll roots).1,
      (g.derive root).2 :: ((g.derive root).1.deriveAll roots).2) := rfl

/-- A place that has come with the derivatives of others can be derived next. -/
theorem HoldsInTurn.concat (h : g.HoldsInTurn roots) (hlt : root < (g.deriveAll roots).1.size) :
    g.HoldsInTurn (roots ++ [root]) := by
  induction roots generalizing g with
  | nil => exact ⟨hlt, trivial⟩
  | cons r roots ih => exact ⟨h.1, ih h.2 hlt⟩

/-- Each derivative stays one while the others are appended. -/
theorem deriveAll_isDerivative (hg : g.WellFormed) (h : g.HoldsInTurn roots) :
    g.Extends (g.deriveAll roots).1 ∧ (g.deriveAll roots).1.WellFormed ∧
      List.Forall₂ (g.deriveAll roots).1.IsDerivative roots (g.deriveAll roots).2 := by
  induction roots generalizing g with
  | nil => exact ⟨.refl g, hg, .nil⟩
  | cons root roots ih =>
    obtain ⟨hd, hroot⟩ := derive_grown_isDerivative hg h.1
    obtain ⟨hext, hwf, hroots⟩ := ih hd.wellFormed h.2
    rw [deriveAll_cons]
    exact ⟨hd.extension.trans hext, hwf, .cons (hroot.mono hext) hroots⟩

theorem IsDerivative.lt_size (h : g.IsDerivative root d) : d < g.size := by
  cases h <;> exact lt_size_of_getElem? ‹g.nodes[d]? = some _›

/-- Deriving places in turn keeps the graph, and gives each the derivative of
    its expression, laid out by the rules around the operands where they are. -/
theorem deriveAll_refines_derivative (hg : g.WellFormed) (h : g.HoldsInTurn roots) :
    let g' := (g.deriveAll roots).1
    g.nodes.toList <+: g'.nodes.toList ∧ g'.WellFormed ∧
      (∀ place node, g'.nodes[place]? = some node →
        g'.unfold place = (node.map g'.unfold).toExpr) ∧
      (∀ place < g.size, g'.unfold place = g.unfold place) ∧
      List.Forall₂ (fun root d => d < g'.size ∧ g'.IsDerivative root d ∧
          g'.unfold d = (g'.unfold root).derivative ∧
          (root < g.size → g'.unfold d = (g.unfold root).derivative))
        roots (g.deriveAll roots).2 := by
  obtain ⟨hext, hwf, hroots⟩ := deriveAll_isDerivative hg h
  refine ⟨hext, hwf, fun _ _ hn => unfold_of_getElem? hwf hn,
    fun _ hlt => hext.unfold_eq hlt, hroots.imp fun root d hd => ?_⟩
  have hunfold := hd.unfold_eq hwf
  exact ⟨hd.lt_size, hd, hunfold, fun hlt => by rw [hunfold, hext.unfold_eq hlt]⟩

/-- A square and a quotient of it, and then the derivative of the quotient. -/
theorem deriveAll_refines_derivative_quotient :
    let g : Graph := ⟨#[.var, .binary .mul 0 0, .binary .div 1 0]⟩
    let roots := [2, 1, (g.derive 2).2]
    let g' := (g.deriveAll roots).1
    g.WellFormed ∧ g.HoldsInTurn roots ∧ g'.WellFormed ∧
      List.Forall₂ (fun root d => g'.IsDerivative root d ∧
          g'.unfold d = (g'.unfold root).derivative)
        roots (g.deriveAll roots).2 := by
  intro g roots
  have hg : g.WellFormed := by decide
  have hfirst : g.HoldsInTurn [2, 1] := .of_lt_size hg (by decide)
  have hroot : 2 < g.size := by decide
  obtain ⟨hd, -⟩ := derive_grown_isDerivative hg hroot
  have hle := (deriveAll_isDerivative hd.wellFormed hfirst.2).1.size_le
  have hroots : g.HoldsInTurn roots := hfirst.concat (Nat.lt_of_lt_of_le hd.lt_size hle)
  obtain ⟨-, hwf, -, -, hds⟩ := deriveAll_refines_derivative hg hroots
  exact ⟨hg, hroots, hwf, hds.imp fun _ _ hd => ⟨hd.2.1, hd.2.2.1⟩⟩

end Derivatives.Graph
