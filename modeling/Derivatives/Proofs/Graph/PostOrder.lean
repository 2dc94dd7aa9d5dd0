import Derivatives.Proofs.Descent.Reading
import Derivatives.Proofs.Expr.Infix
import Derivatives.Proofs.Graph.Measure
import Derivatives.Proofs.Graph.Reachable
import Derivatives.Proofs.Number.Arithmetic
import Mathlib.Data.List.Nodup

/-!
# Post-order

Adding an expression to a graph appends its nodes in post-order (`Expr.postOrder`): each
operand owns a stretch of the nodes, which ends with its root, and the stretches of the
operands of a node come one after the other in front of it (`Graph.addExpr_owns`). So the
nodes make the commands of the expression one by one (`Expr.map_command_postOrder`), and
every node but the last is an operand just once (`Expr.operands_postOrder`).

The graph of a formula on a line has these nodes and no other. It is a tree
(`Graph.IsTree`): every place can be reached from the root (`Formula.reachable_of_parse`),
and nothing is shared (`Formula.postOrder_of_parse`).
-/

namespace Derivatives

/-- The command that a node makes. -/
def Node.command (x : Float) : Node Nat → Command
  | .constant value => .push value
  | .var => .value x
  | .binary op _ _ => .operator op
  | .negate _ => .unaryMinus

/-- Nodes are equal to themselves, as far as their numbers are. -/
theorem Node.beq_self {node : Node Nat} (h : ∀ v, node = .constant v → v == v) :
    node == node := by
  cases node with
  | constant v => exact h v rfl
  | var => rfl
  | binary op left right =>
    change (op == op && (left == left && right == right)) = true
    simp
  | negate operand =>
    change (operand == operand) = true
    simp

namespace Expr

/-! ## The nodes of an expression -/

/-- The place of the last node of an expression the first node of which stands at `start`. -/
def last (start : Nat) (e : Expr) : Nat := start + e.size - 1

/-- The nodes of an expression in post-order, the first of which stands at `start`. -/
def postOrder (start : Nat) : Expr → List (Node Nat)
  | .constant value => [.constant value]
  | .var => [.var]
  | .binary op left right =>
    left.postOrder start ++ (right.postOrder (start + left.size) ++
      [.binary op (left.last start) (right.last (start + left.size))])
  | .negate operand => operand.postOrder start ++ [.negate (operand.last start)]

theorem size_pos (e : Expr) : 0 < e.size := by
  cases e <;> exact Nat.succ_pos _

theorem length_postOrder (start : Nat) (e : Expr) : (e.postOrder start).length = e.size := by
  induction e generalizing start with
  | constant value => rfl
  | var => rfl
  | binary op left right ihl ihr =>
    rw [postOrder, List.length_append, List.length_append, ihl, ihr, size, Nat.add_assoc]
    rfl
  | negate operand ih =>
    rw [postOrder, List.length_append, ih, size]
    rfl

theorem mem_constants_of_mem_postOrder {start : Nat} {v : Float} (e : Expr)
    (h : .constant v ∈ e.postOrder start) : v ∈ e.constants := by
  induction e generalizing start with
  | constant value =>
    obtain ⟨rfl⟩ := List.mem_singleton.1 h
    exact List.mem_singleton_self v
  | var => cases List.mem_singleton.1 h
  | binary op left right ihl ihr =>
    rw [postOrder, List.mem_append, List.mem_append] at h
    rw [constants, List.mem_append]
    rcases h with h | h | h
    · exact .inl (ihl h)
    · exact .inr (ihr h)
    · cases List.mem_singleton.1 h
  | negate operand ih =>
    rw [postOrder, List.mem_append] at h
    rcases h with h | h
    · exact ih h
    · cases List.mem_singleton.1 h

/-- In post-order, the nodes make the commands of the expression. -/
theorem map_command_postOrder (x : Float) (start : Nat) (e : Expr) :
    (e.postOrder start).map (Node.command x) = e.commands x := by
  induction e generalizing start with
  | constant value => rfl
  | var => rfl
  | binary op left right ihl ihr =>
    rw [postOrder, List.map_append, List.map_append, ihl, ihr, commands_binary, List.append_assoc]
    rfl
  | negate operand ih =>
    rw [postOrder, List.map_append, ih, commands_negate]
    rfl

/-- The places of an expression, the last one of which is that of its root. -/
theorem range'_size (start : Nat) (e : Expr) :
    List.range' start e.size = List.range' start (e.size - 1) ++ [e.last start] := by
  have hsize : e.size - 1 + 1 = e.size := Nat.sub_add_cancel e.size_pos
  rw [last, Nat.add_sub_assoc e.size_pos, ← List.range'_1_concat, hsize]

/-- The roots of two sides become operands behind all the others. -/
theorem perm_append_roots {as as' bs bs' : List Nat} (ha : as.Perm as') (hb : bs.Perm bs')
    (a b : Nat) : (as ++ (bs ++ [a, b])).Perm (as' ++ [a] ++ (bs' ++ [b])) := by
  have hroot : (bs ++ [a, b]).Perm (a :: (bs ++ [b])) := List.perm_middle
  have hboth := (ha.append_right [a]).append (hb.append_right [b])
  rw [List.append_assoc, List.singleton_append] at hboth
  exact (hroot.append_left as).trans hboth

/-- In post-order, every node but the last is an operand of one node. -/
theorem operands_postOrder (start : Nat) (e : Expr) :
    ((e.postOrder start).flatMap Node.operands).Perm (List.range' start (e.size - 1)) := by
  induction e generalizing start with
  | constant value => rfl
  | var => rfl
  | binary op left right ihl ihr =>
    have hoperands : (postOrder start (.binary op left right)).flatMap Node.operands =
        (left.postOrder start).flatMap Node.operands ++
          ((right.postOrder (start + left.size)).flatMap Node.operands ++
            [left.last start, right.last (start + left.size)]) := by
      rw [postOrder, List.flatMap_append, List.flatMap_append]
      rfl
    have hrange : List.range' start (left.size + right.size) =
        List.range' start (left.size - 1) ++ [left.last start] ++
          (List.range' (start + left.size) (right.size - 1) ++
            [right.last (start + left.size)]) := by
      rw [← range'_size, ← range'_size, List.range'_append_1]
    rw [hoperands, size, Nat.add_sub_cancel, hrange]
    exact perm_append_roots (ihl start) (ihr (start + left.size)) _ _
  | negate operand ih =>
    rw [postOrder, List.flatMap_append, size, Nat.add_sub_cancel, range'_size]
    exact (ih start).append_right [operand.last start]

end Expr

namespace Graph

variable {g g' : Graph} {node : Node Nat} {e : Expr}

/-- An expression owns the nodes that are appended for it. -/
structure Owns (g : Graph) (e : Expr) (result : Graph × Nat) : Prop where
  nodes_eq : result.1.nodes.toList = g.nodes.toList ++ e.postOrder g.size
  root_eq : result.2 = e.last g.size

theorem Owns.size_eq {result : Graph × Nat} (h : g.Owns e result) :
    result.1.size = g.size + e.size := by
  rw [size, ← Array.length_toList, h.nodes_eq, List.length_append, e.length_postOrder]
  rfl

theorem addExpr_owns (g : Graph) (e : Expr) : g.Owns e (g.addExpr e) := by
  induction e generalizing g with
  | constant value => exact ⟨Array.toList_push, rfl⟩
  | var => exact ⟨Array.toList_push, rfl⟩
  | binary op left right ihl ihr =>
    have hl := ihl g
    have hr := ihr (g.addExpr left).1
    refine ⟨?_, ?_⟩
    · rw [addExpr]
      dsimp only
      rw [nodes_add, hr.nodes_eq, hl.nodes_eq, hr.root_eq, hl.root_eq, hl.size_eq,
        Expr.postOrder, List.append_assoc, List.append_assoc]
    · rw [Expr.last, Expr.size, ← Nat.add_assoc, ← Nat.add_assoc, ← hl.size_eq, ← hr.size_eq]
      rfl
  | negate operand ih =>
    have h := ih g
    refine ⟨?_, h.size_eq⟩
    rw [addExpr]
    dsimp only
    rw [nodes_add, h.nodes_eq, h.root_eq, Expr.postOrder, List.append_assoc]

/-! ## Trees -/

/-- A graph is a tree that ends with its root: every other place is an operand just once. -/
structure IsTree (g : Graph) (root : Nat) : Prop where
  size_eq : g.size = root + 1
  operands_perm : (g.nodes.toList.flatMap Node.operands).Perm (List.range root)

variable {root i j k : Nat}

theorem mem_operands_iff :
    j ∈ g.nodes.toList.flatMap Node.operands ↔ ∃ i, g.IsParent i j := by
  rw [List.mem_flatMap]
  constructor
  · rintro ⟨node, hnode, hj⟩
    obtain ⟨i, hi⟩ := List.mem_iff_getElem?.1 hnode
    exact ⟨i, node, Array.getElem?_toList ▸ hi, hj⟩
  · rintro ⟨i, node, hi, hj⟩
    exact ⟨node, List.mem_iff_getElem?.2 ⟨i, Array.getElem?_toList ▸ hi⟩, hj⟩

theorem IsTree.exists_isParent_iff (h : g.IsTree root) : (∃ i, g.IsParent i j) ↔ j < root := by
  rw [← mem_operands_iff, h.operands_perm.mem_iff, List.mem_range]

/-- Nothing is shared. -/
theorem IsTree.isParent_unique (h : g.IsTree root) (hi : g.IsParent i k) (hj : g.IsParent j k) :
    i = j := by
  have hnodup : (g.nodes.toList.flatMap Node.operands).Nodup :=
    h.operands_perm.nodup_iff.2 List.nodup_range
  have hpairwise := List.pairwise_iff_getElem.1 (List.nodup_flatMap.1 hnodup).2
  have hne {i j : Nat} (hi : g.IsParent i k) (hj : g.IsParent j k) : ¬ i < j := by
    intro hlt
    obtain ⟨node, hnode, hk⟩ := hi
    obtain ⟨node', hnode', hk'⟩ := hj
    rw [← Array.getElem?_toList] at hnode hnode'
    obtain ⟨hilt, rfl⟩ := List.getElem?_eq_some_iff.1 hnode
    obtain ⟨hjlt, rfl⟩ := List.getElem?_eq_some_iff.1 hnode'
    exact hpairwise i j hilt hjlt hlt hk hk'
  exact Nat.le_antisymm (Nat.not_lt.1 (hne hj hi)) (Nat.not_lt.1 (hne hi hj))

/-- Every place can be reached from the root. -/
theorem IsTree.reflTransGen (h : g.IsTree root) (hg : g.WellFormed) (hi : i ≤ root) :
    Relation.ReflTransGen g.IsParent root i := by
  -- By induction on how far the place is from the root: its parent is nearer.
  induction hn : root - i using Nat.strongRecOn generalizing i with
  | ind n ih =>
    rcases Nat.eq_or_lt_of_le hi with rfl | hlt
    · exact .refl
    · obtain ⟨j, node, hj, hmem⟩ := h.exists_isParent_iff.2 hlt
      have hij : i < j := hg j node hj i hmem
      have hjsize : j < root + 1 := h.size_eq ▸ lt_size_of_getElem? hj
      have hjroot : j ≤ root := Nat.le_of_lt_succ hjsize
      exact (ih (root - j) (by omega) hjroot rfl).tail ⟨node, hj, hmem⟩

/-- So all places are found from there. -/
theorem IsTree.reachable_eq (h : g.IsTree root) (hg : g.WellFormed) :
    g.reachable root = List.range g.size := by
  rw [h.size_eq]
  refine List.filter_eq_self.2 fun i hi => ?_
  have hmem := (mem_reachable_iff hg).2
    (h.reflTransGen hg (Nat.le_of_lt_succ (List.mem_range.1 hi)))
  exact (List.mem_filter.1 hmem).2

theorem isTree_addExpr (e : Expr) : (addExpr {} e).1.IsTree (addExpr {} e).2 := by
  have h := addExpr_owns {} e
  have hlast : e.last 0 = e.size - 1 := congrArg (· - 1) (Nat.zero_add e.size)
  have hroot : (addExpr {} e).2 = e.size - 1 := h.root_eq.trans hlast
  refine ⟨?_, ?_⟩
  · rw [h.size_eq, hroot, Nat.sub_add_cancel e.size_pos]
    exact Nat.zero_add _
  · rw [h.nodes_eq, hroot, List.range_eq_range']
    exact e.operands_postOrder 0

end Graph

/-! ## Formulas -/

namespace Formula

variable {f f' : Formula} {line line' : String}

theorem nodes_ofExpr (e : Expr) : (ofExpr e).graph.nodes.toList = e.postOrder 0 :=
  (Graph.addExpr_owns {} e).nodes_eq

theorem size_ofExpr (e : Expr) : (ofExpr e).graph.size = e.size :=
  (Graph.addExpr_owns {} e).size_eq.trans (Nat.zero_add _)

theorem isTree_of_parse (h : parse line = .ok f) : f.graph.IsTree f.root := by
  obtain ⟨e, -, rfl⟩ := exists_of_parse h
  exact Graph.isTree_addExpr e

/-- A formula on a line is made of all the nodes of its graph. -/
theorem reachable_of_parse (h : parse line = .ok f) :
    f.graph.reachable f.root = List.range f.graph.size :=
  (isTree_of_parse h).reachable_eq (wellFormed_of_parse h).graph

/-- Lines with the same expression have the same formula. -/
theorem eq_of_toExpr_eq (h : parse line = .ok f) (h' : parse line' = .ok f')
    (hexpr : f.toExpr = f'.toExpr) : f = f' := by
  obtain ⟨e, -, rfl⟩ := exists_of_parse h
  obtain ⟨e', -, rfl⟩ := exists_of_parse h'
  rw [toExpr_ofExpr, toExpr_ofExpr] at hexpr
  rw [hexpr]

/-- A formula on a line equals itself, as all of its numbers do. -/
theorem beq_self_of_parse (h : parse line = .ok f) : f == f := by
  obtain ⟨e, he, rfl⟩ := exists_of_parse h
  have hnodes : ∀ node ∈ (ofExpr e).graph.nodes.toList, node == node := by
    intro node hnode
    rw [nodes_ofExpr] at hnode
    refine Node.beq_self fun v hv => Number.beq_self (Number.not_isNaN_of_isUnsigned ?_)
    exact Expr.isUnsigned_of_parse he v (e.mem_constants_of_mem_postOrder (hv ▸ hnode))
  have hgraph : (ofExpr e).graph == (ofExpr e).graph :=
    Array.isEqv_iff_rel.2 ⟨rfl, fun i hi => hnodes _ (by simp)⟩
  change ((ofExpr e).graph == (ofExpr e).graph && (ofExpr e).root == (ofExpr e).root) = true
  rw [hgraph]
  exact beq_self_eq_true (ofExpr e).root

end Formula

/-- A formula on a line has the nodes of its expression in post-order, one for each of its
    commands, and no others: its graph is a tree, which has been laid out as it was read. So
    it is given by its expression. -/
theorem Formula.postOrder_of_parse {line : String} {f : Formula} (h : parse line = .ok f) :
    (∀ levels, 3 * (lineCharacters line).length + 3 ≤ levels →
      (Descent.line levels { cursor := .ofLine line }).result =
        some (.ok f, (Cursor.ofLine line).toEnd)) ∧
    (∀ x, (f.commands x).length = f.graph.size ∧
      ∀ i : Nat, (f.commands x)[i]? = f.graph.nodes[i]?.map (Node.command x)) ∧
    f.root + 1 = f.graph.size ∧
    (∀ i < f.graph.size, Relation.ReflTransGen f.graph.IsParent f.root i ∧
      (i ≠ f.root → ∃! j, f.graph.IsParent j i)) ∧
    (∀ j, ¬ f.graph.IsParent j f.root) ∧
    (f.graph.nodes.toList.flatMap Node.operands).Perm (List.range f.root) ∧
    ∀ line' f', parse line' = .ok f' → f'.toExpr = f.toExpr → f' = f ∧ f' == f := by
  have htree := isTree_of_parse h
  obtain ⟨e, -, rfl⟩ := exists_of_parse h
  -- The commands are the nodes in turn, since both are the post-order of one expression.
  have hcommands (x : Float) :
      (ofExpr e).commands x = (ofExpr e).graph.nodes.toList.map (Node.command x) := by
    rw [commands_eq, toExpr_ofExpr, nodes_ofExpr, e.map_command_postOrder]
  refine ⟨fun levels hlevels => Descent.result_line_of_parse h hlevels,
    fun x => ⟨?_, fun i => ?_⟩, htree.size_eq.symm, fun i hi => ?_,
    fun j hj => Nat.lt_irrefl _ (htree.exists_isParent_iff.1 ⟨j, hj⟩), htree.operands_perm, ?_⟩
  · rw [hcommands, List.length_map]
    rfl
  · rw [hcommands, List.getElem?_map, Array.getElem?_toList]
  · rw [htree.size_eq] at hi
    refine ⟨htree.reflTransGen (ofExpr_wellFormed e).graph (Nat.le_of_lt_succ hi), fun hne => ?_⟩
    have hlt : i < (ofExpr e).root := Nat.lt_of_le_of_ne (Nat.le_of_lt_succ hi) hne
    obtain ⟨j, hj⟩ := htree.exists_isParent_iff.2 hlt
    exact ⟨j, hj, fun k hk => htree.isParent_unique hk hj⟩
  · intro line' f' h' hexpr
    obtain rfl := eq_of_toExpr_eq h' h hexpr
    exact ⟨rfl, beq_self_of_parse h⟩

/-- Parentheses and blanks that change nothing leave no trace. -/
theorem Formula.postOrder_of_parse_parentheses :
    ∃ f f', parse "-(x*2)\n" = .ok f ∧ parse " - ((x) * (2) )\n" = .ok f' ∧ f' = f ∧ f' == f ∧
      f.root + 1 = f.graph.size ∧ (f.commands 0.5).length = f.graph.size ∧
      (Descent.line 30 { cursor := .ofLine "-(x*2)\n" }).result =
        some (.ok f, (Cursor.ofLine "-(x*2)\n").toEnd) := by
  have hparse : Expr.parse "-(x*2)\n" = .ok (.negate (.binary .mul .var (.constant 2.0))) := by
    decide +kernel
  have hparse' : Expr.parse " - ((x) * (2) )\n" =
      .ok (.negate (.binary .mul .var (.constant 2.0))) := by
    decide +kernel
  obtain ⟨hdescent, hcommands, hsize, -, -, -, hsame⟩ :=
    postOrder_of_parse (parse_of_parse hparse)
  obtain ⟨heq, hbeq⟩ := hsame _ _ (parse_of_parse hparse') rfl
  exact ⟨_, _, parse_of_parse hparse, parse_of_parse hparse', heq, hbeq, hsize,
    (hcommands 0.5).1, hdescent 30 (by decide)⟩

end Derivatives
