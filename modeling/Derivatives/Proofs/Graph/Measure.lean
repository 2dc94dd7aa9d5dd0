import Derivatives.Proofs.Graph.Visit

/-!
# Measures of expressions in a graph

The passes over a graph that measure the expression at a place never look at the expression,
which may be far larger than the graph. Still, they give its depth (`Graph.depth_eq`) and its
number of nodes, as long as that can be shown (`Graph.nodeCount_eq`): once a count has reached the
limit, so have all that it is an operand of.

The passes compute in words of 64 bits. There, the sums in a count stop at the largest word
(`saturatingAdd`), whereas those in a depth would start over behind it; but a place is no deeper
than it is far from the start (`Graph.depth_le`), so none of them gets there
(`Graph.wordDepth_eq`).
-/

namespace Derivatives

/-! ## Measures in words -/

/-- The sum of two words, or the largest word if it does not fit. -/
def saturatingAdd (a b : UInt64) : UInt64 := if a + b < a then .ofNat Graph.countLimit else a + b

theorem toNat_saturatingAdd (a b : UInt64) :
    (saturatingAdd a b).toNat = min (a.toNat + b.toNat) Graph.countLimit := by
  have ha := a.toNat_lt
  have hb := b.toNat_lt
  have hsum : (a + b).toNat = (a.toNat + b.toNat) % 2 ^ 64 := UInt64.toNat_add a b
  have hlimit : (UInt64.ofNat Graph.countLimit).toNat = Graph.countLimit := rfl
  simp only [saturatingAdd, UInt64.lt_iff_toNat_lt]
  split
  · rw [hlimit]
    unfold Graph.countLimit
    omega
  · unfold Graph.countLimit
    omega

/-- The larger of two words is that of the larger number. -/
theorem ofNat_max {a b : Nat} (ha : a < UInt64.size) (hb : b < UInt64.size) :
    max (UInt64.ofNat a) (.ofNat b) = .ofNat (max a b) := by
  have hle : UInt64.ofNat a ≤ .ofNat b ↔ a ≤ b := by
    rw [UInt64.le_iff_toNat_le, UInt64.toNat_ofNat', UInt64.toNat_ofNat', Nat.mod_eq_of_lt ha,
      Nat.mod_eq_of_lt hb]
  rcases Nat.le_total a b with h | h
  · rw [Nat.max_eq_right h]
    exact if_pos (hle.2 h)
  · rw [Nat.max_eq_left h]
    by_cases h' : a ≤ b
    · obtain rfl := Nat.le_antisymm h h'
      exact ite_self _
    · exact if_neg (mt hle.1 h')

namespace Node

/-- A measure of a node in words: one for a leaf, and otherwise what `join` makes of the
    measures of the operands, a missing one counting zero. -/
def wordMeasure (join : UInt64 → UInt64 → UInt64) : Node UInt64 → UInt64
  | constant _ | var => 1
  | binary _ left right => join left right
  | negate operand => join operand 0

/-- The number of nodes of an expression, up to the limit, from those of the operands of its
    root. -/
theorem min_size_toExpr (node : Node Expr) :
    min Graph.countLimit node.toExpr.size =
      (node.map fun e => min Graph.countLimit e.size).measure
        fun a b => min (a + b + 1) Graph.countLimit := by
  cases node with
  | constant value | var => rfl
  | binary op left right =>
    simp only [toExpr, map, measure, Expr.size]
    omega
  | negate operand =>
    simp only [toExpr, map, measure, Expr.size]
    omega

end Node

/-- The code of an expression has a command for each of its nodes. -/
theorem Expr.length_commands (x : Float) (e : Expr) : (e.commands x).length = e.size := by
  induction e with
  | constant value => rfl
  | var => rfl
  | binary op left right ihl ihr =>
    rw [commands_binary, List.length_append, List.length_append, ihl, ihr, size]
    rfl
  | negate operand ih =>
    rw [commands_negate, List.length_append, ih, size]
    rfl

namespace Graph

variable {g : Graph} {place : Nat}

/-- The number of nodes of the expression at a place, computed in words. -/
def wordCount (g : Graph) (root : Nat) : UInt64 :=
  g.fold (Node.wordMeasure fun a b => saturatingAdd (saturatingAdd a b) 1) root

/-- The number of levels of the expression at a place, computed in words. -/
def wordDepth (g : Graph) (root : Nat) : UInt64 :=
  g.fold (Node.wordMeasure fun a b => max a b + 1) root

/-! ## Counts -/

/-- The node count is the number of nodes of the expression, as long as it can be shown. -/
theorem nodeCount_eq (hg : g.WellFormed) (hlt : place < g.size) :
    g.nodeCount place = min countLimit (g.unfold place).size :=
  @fold_eq g place Nat _ _ (fun e => min countLimit e.size) Node.min_size_toExpr hg hlt

theorem toNat_wordCount (hg : g.WellFormed) (hlt : place < g.size) :
    (g.wordCount place).toNat = g.nodeCount place := by
  refine (fold_map hg (fun _ node _ => ?_) hlt).symm
  have hjoin (a b : UInt64) : (saturatingAdd (saturatingAdd a b) 1).toNat =
      min (a.toNat + b.toNat + 1) countLimit := by
    rw [toNat_saturatingAdd, toNat_saturatingAdd, UInt64.toNat_one]
    omega
  cases node with
  | constant value | var => rfl
  | binary op a b => exact hjoin _ _
  | negate a => exact hjoin _ 0

/-! ## Depths -/

/-- No sum in a depth exceeds a word, if the number of nodes does not. -/
theorem wordDepth_eq (hg : g.WellFormed) (hsize : g.size < UInt64.size) (hlt : place < g.size) :
    g.wordDepth place = .ofNat (g.depth place) := by
  refine @fold_map g place Nat _ _ _ _ _ _ hg (fun place node hn => ?_) hlt
  have hplace := lt_size_of_getElem? hn
  have hdepth (a : Nat) (ha : a ∈ node.operands) : g.depth a < UInt64.size := by
    have haplace := hg place node hn a ha
    have := depth_le hg (Nat.lt_trans haplace hplace)
    omega
  cases node with
  | constant value | var => rfl
  | binary op a b =>
    have ha := hdepth a (by simp [Node.operands])
    have hb := hdepth b (by simp [Node.operands])
    refine (UInt64.ofNat_add _ _).trans (congrArg (· + 1) ?_)
    exact (ofNat_max ha hb).symm
  | negate a =>
    have ha := hdepth a (by simp [Node.operands])
    refine (UInt64.ofNat_add _ _).trans (congrArg (· + 1) ?_)
    exact (ofNat_max ha (by decide)).symm

/-! ## Measures and the expression -/

/-- The measures of a place are those of the expression there, which repeats what is shared: the
    depth, no larger than the place is far from the start, and the number of nodes, as long as it
    can be shown; computed in words, they are the same. The code of the expression has as many
    commands as it has nodes. -/
theorem measures_eq_unfold (hg : g.WellFormed) {root : Nat} (hlt : root < g.size) :
    (∀ place node, g.nodes[place]? = some node →
      g.unfold place = (node.map g.unfold).toExpr) ∧
    g.depth root = (g.unfold root).depth ∧
    (∀ place ≤ root, g.depth place ≤ place + 1) ∧
    (g.size < UInt64.size → (g.wordDepth root).toNat = g.depth root) ∧
    g.nodeCount root = min (UInt64.size - 1) (g.unfold root).size ∧
    (g.wordCount root).toNat = g.nodeCount root ∧
    ∀ x, g.visit? (Node.commands x) (root + 1) root = some (g.commands x [root]) ∧
      (g.commands x [root]).length = (g.unfold root).size := by
  refine ⟨fun place node hn => unfold_of_getElem? hg hn, depth_eq hg hlt,
    fun place hle => depth_le hg (Nat.lt_of_le_of_lt hle hlt), fun hsize => ?_,
    nodeCount_eq hg hlt, toNat_wordCount hg hlt,
    fun x => ⟨(hg.visitable hlt).commands x, ?_⟩⟩
  · have hdepth : g.depth root < UInt64.size :=
      Nat.lt_of_le_of_lt (depth_le hg hlt) (Nat.lt_of_le_of_lt hlt hsize)
    rw [wordDepth_eq hg hsize hlt]
    exact UInt64.toNat_ofNat_of_lt hdepth
  · rw [commands_singleton, Expr.length_commands]

/-- Of 64 sums, each of which adds the one before to itself, the last has more nodes than can be
    shown, on 65 levels. -/
theorem measures_eq_unfold_doublings :
    let sum (i : Nat) : Node Nat := if i = 0 then .var else .binary .add (i - 1) (i - 1)
    let g : Graph := ⟨((List.range 65).map sum).toArray⟩
    g.WellFormed ∧ 64 < g.size ∧ g.size < UInt64.size ∧
      (g.unfold 64).depth = 65 ∧ (g.wordDepth 64).toNat = 65 ∧
      UInt64.size - 1 ≤ (g.unfold 64).size ∧ (g.wordCount 64).toNat = UInt64.size - 1 := by
  intro sum g
  have hg : g.WellFormed := by decide +kernel
  have hlt : 64 < g.size := by decide +kernel
  have hsize : g.size < UInt64.size := by decide +kernel
  obtain ⟨-, hdepth, -, hwordDepth, hcount, hwordCount, -⟩ := measures_eq_unfold hg hlt
  have hdepth' : g.depth 64 = 65 := by decide +kernel
  have hcount' : g.nodeCount 64 = UInt64.size - 1 := by decide +kernel
  rw [hcount'] at hcount hwordCount
  have hsize' : UInt64.size - 1 ≤ (g.unfold 64).size := by omega
  exact ⟨hg, hlt, hsize, hdepth ▸ hdepth', (hwordDepth hsize).trans hdepth', hsize', hwordCount⟩

end Graph

end Derivatives
