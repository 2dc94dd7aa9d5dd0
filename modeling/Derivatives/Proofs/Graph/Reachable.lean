import Derivatives.Proofs.Graph
import Mathlib.Logic.Relation

/-!
# Reachable nodes

The expression at a place is made of the nodes that can be reached from it, going from nodes to
their operands (`Graph.IsParent`). They are found in one pass, the last node first: as operands
come first, the pass gets to a node when all those are done that could have marked it. So the
places that are marked in the end (`Graph.Marking`, `Graph.marking_markBelow`) are those that can
be reached (`Graph.mem_reachable_iff`).
-/

namespace Derivatives.Graph

variable {g : Graph} {root n i j : Nat} {marked : Array Bool}

/-- The node at the place `i` has that at the place `j` as an operand. -/
def IsParent (g : Graph) (i j : Nat) : Prop :=
  ∃ node, g.nodes[i]? = some node ∧ j ∈ node.operands

theorem WellFormed.lt_of_isParent (hg : g.WellFormed) (h : g.IsParent i j) : j < i := by
  obtain ⟨node, hi, hj⟩ := h
  exact hg i node hi j hj

/-! ## Marks -/

theorem getD_eq_true_iff : marked.getD i false = true ↔ marked[i]? = some true := by
  rw [Array.getD_eq_getD_getElem?]
  cases marked[i]? with
  | none => simp
  | some mark => simp

/-- What the pass marks at the place `n`: the operands of the node, if it is marked itself. -/
theorem mem_operands_iff_isParent :
    j ∈ (if marked.getD n false then g.nodes[n]?.elim [] Node.operands else []) ↔
      marked[n]? = some true ∧ g.IsParent n j := by
  rw [← getD_eq_true_iff, IsParent]
  cases hn : g.nodes[n]? with
  | none => simp
  | some node => simp [apply_ite (j ∈ ·)]

/-- Marks, and those for some places more. -/
def mark (marked : Array Bool) (places : List Nat) : Array Bool :=
  places.foldl (fun marked j => marked.setIfInBounds j true) marked

theorem size_mark (marked : Array Bool) (places : List Nat) :
    (mark marked places).size = marked.size := by
  induction places generalizing marked with
  | nil => rfl
  | cons j places ih => rw [mark, List.foldl_cons, ← mark, ih, Array.size_setIfInBounds]

/-- The places of a list become marked, and no others do. -/
theorem getElem?_mark_iff {places : List Nat} (h : ∀ j ∈ places, j < marked.size) :
    (mark marked places)[i]? = some true ↔ i ∈ places ∨ marked[i]? = some true := by
  induction places generalizing marked with
  | nil => simp [mark]
  | cons j places ih =>
    rw [List.forall_mem_cons] at h
    have hmark : (marked.setIfInBounds j true)[i]? = some true ↔
        i = j ∨ marked[i]? = some true := by
      rw [Array.getElem?_setIfInBounds]
      by_cases hji : j = i
      · simp [hji, hji ▸ h.1]
      · simp [hji, Ne.symm hji]
    have hbound : ∀ j' ∈ places, j' < (marked.setIfInBounds j true).size := by
      rw [Array.size_setIfInBounds]
      exact h.2
    rw [mark, List.foldl_cons, ← mark, ih hbound, hmark, List.mem_cons, or_left_comm, or_assoc]

/-- The marks when the pass has got down to the place `n`: only what can be reached has one, and
    the operands of the marked nodes from there on do. -/
structure Marking (g : Graph) (root n : Nat) (marked : Array Bool) : Prop where
  size_eq : marked.size = root + 1
  start : marked[root]? = some true
  reaches : ∀ {i : Nat}, marked[i]? = some true → Relation.ReflTransGen g.IsParent root i
  closed : ∀ {i j : Nat}, n ≤ i → marked[i]? = some true → g.IsParent i j →
    marked[j]? = some true

/-- At first, the root alone is marked, and the pass gets to it next. -/
theorem marking_start (g : Graph) (root : Nat) :
    g.Marking root (root + 1) ((Array.replicate (root + 1) false).setIfInBounds root true) := by
  have hmark {i : Nat} : ((Array.replicate (root + 1) false).setIfInBounds root true)[i]? =
      some true ↔ i = root := by
    rw [Array.getElem?_setIfInBounds, Array.size_replicate, Array.getElem?_replicate]
    by_cases hi : root = i
    · simp [hi]
    · simp [hi, Ne.symm hi]
  refine ⟨by simp, hmark.2 rfl, fun h => ?_, fun hle h => ?_⟩
  · rw [hmark.1 h]
  · rw [hmark.1 h] at hle
    exact absurd hle (Nat.not_succ_le_self root)

/-- One step of the pass. -/
theorem Marking.step (hg : g.WellFormed) (h : g.Marking root (n + 1) marked) :
    let operands := if marked.getD n false then g.nodes[n]?.elim [] Node.operands else []
    g.Marking root n (mark marked operands) := by
  intro operands
  have hmem {j : Nat} : j ∈ operands ↔ marked[n]? = some true ∧ g.IsParent n j :=
    mem_operands_iff_isParent
  have hbound : ∀ j ∈ operands, j < marked.size := by
    intro j hj
    obtain ⟨hn, hparent⟩ := hmem.1 hj
    exact Nat.lt_trans (hg.lt_of_isParent hparent) (Array.getElem?_eq_some_iff.1 hn).1
  have hmark {i : Nat} : (mark marked operands)[i]? = some true ↔
      i ∈ operands ∨ marked[i]? = some true :=
    getElem?_mark_iff hbound
  refine ⟨(size_mark marked operands).trans h.size_eq, hmark.2 (.inr h.start),
    fun hi => ?_, fun {i j} hle hi hj => ?_⟩
  · rcases hmark.1 hi with hi | hi
    · exact (h.reaches (hmem.1 hi).1).tail (hmem.1 hi).2
    · exact h.reaches hi
  · -- A node from here on has been marked before, as operands come first.
    have hi' : marked[i]? = some true := (hmark.1 hi).resolve_left fun hmem' =>
      absurd (hg.lt_of_isParent (hmem.1 hmem').2) (Nat.not_lt.2 hle)
    refine hmark.2 ?_
    rcases Nat.eq_or_lt_of_le hle with rfl | hlt
    · exact .inl (hmem.2 ⟨hi', hj⟩)
    · exact .inr (h.closed hlt hi' hj)

/-- The pass, down to the first node. -/
theorem marking_markBelow (hg : g.WellFormed) (h : g.Marking root n marked) :
    g.Marking root 0 (g.markBelow n marked) := by
  induction n generalizing marked with
  | zero => exact h
  | succ n ih => exact ih (h.step hg)

/-- Once the pass is done, all that can be reached is marked. -/
theorem Marking.getElem?_eq_iff (h : g.Marking root 0 marked) :
    marked[i]? = some true ↔ Relation.ReflTransGen g.IsParent root i := by
  refine ⟨h.reaches, fun hi => ?_⟩
  induction hi with
  | refl => exact h.start
  | tail _ hparent ih => exact h.closed (Nat.zero_le _) ih hparent

/-! ## Reachable places -/

/-- The places found are those that can be reached from the root. -/
theorem mem_reachable_iff (hg : g.WellFormed) :
    i ∈ g.reachable root ↔ Relation.ReflTransGen g.IsParent root i := by
  have h := marking_markBelow hg (marking_start g root)
  rw [reachable, List.mem_filter, List.mem_range, getD_eq_true_iff, h.getElem?_eq_iff,
    and_iff_right_iff_imp]
  intro hi
  exact h.size_eq ▸ (Array.getElem?_eq_some_iff.1 (h.getElem?_eq_iff.2 hi)).1

/-- They are found in ascending order, none of them twice. -/
theorem pairwise_reachable (g : Graph) (root : Nat) : (g.reachable root).Pairwise (· < ·) :=
  List.pairwise_lt_range.filter _

end Derivatives.Graph
