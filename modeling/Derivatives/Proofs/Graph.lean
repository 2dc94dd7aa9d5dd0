import Derivatives.Graph

/-!
# Growing graphs

What a pass gives to a place depends on the nodes up to it only. Hence, in a
well-formed graph, a pass is the recursion over operands it stands for, and what
it gives to a place is the same in every graph that *extends* this one, i.e.,
starts with the same nodes.

* `fold_of_getElem?`: a pass gives a node what it makes of the values of its
  operands;
* `Extends.fold_eq`: later nodes change nothing;
* `depth_eq`: the depth of a place is that of its expression;
* `addExpr_grown`, `unfold_addExpr`: adding an expression extends the graph, and
  it stands at the place returned.
-/

namespace Derivatives

/-! ## Nodes -/

namespace Node

variable {α β : Type}

theorem map_congr {node : Node α} {f f' : α → β} (h : ∀ a ∈ node.operands, f a = f' a) :
    node.map f = node.map f' := by
  cases node <;> simp_all [map, operands]

/-- The depth of an expression, from those of the operands of its root. -/
theorem depth_toExpr (node : Node Expr) :
    node.toExpr.depth = (node.map Expr.depth).measure fun a b => max a b + 1 := by
  cases node <;> simp [toExpr, map, measure, Expr.depth]

theorem map_map {γ : Type} (node : Node α) (f : α → β) (f' : β → γ) :
    (node.map f).map f' = node.map fun a => f' (f a) := by
  cases node <;> rfl

end Node

namespace Graph

variable {g g' g'' : Graph} {node : Node Nat} {place : Nat}

theorem wellFormed_iff_forall_fin :
    g.WellFormed ↔ ∀ i : Fin g.nodes.size, ∀ a ∈ g.nodes[i].operands, a < i := by
  constructor
  · exact fun h i => h i _ (Array.getElem?_eq_getElem i.2)
  · intro h i node hi
    obtain ⟨hlt, rfl⟩ := Array.getElem?_eq_some_iff.1 hi
    exact h ⟨i, hlt⟩

instance : DecidablePred WellFormed := fun _ => decidable_of_iff' _ wellFormed_iff_forall_fin

theorem wellFormed_empty : WellFormed {} := by decide

/-! ## Extension -/

/-- The graph `g'` starts with the nodes of `g`. -/
def Extends (g g' : Graph) : Prop := g.nodes.toList <+: g'.nodes.toList

theorem Extends.refl (g : Graph) : g.Extends g := List.prefix_rfl

theorem Extends.trans (h : g.Extends g') (h' : g'.Extends g'') : g.Extends g'' :=
  List.IsPrefix.trans h h'

theorem Extends.size_le (h : g.Extends g') : g.size ≤ g'.size := List.IsPrefix.length_le h

theorem Extends.getElem? (h : g.Extends g') (hn : g.nodes[place]? = some node) :
    g'.nodes[place]? = some node := by
  obtain ⟨rest, hrest⟩ := h
  rw [← Array.getElem?_toList] at hn ⊢
  rw [← hrest, List.getElem?_append_left (List.getElem?_eq_some_iff.1 hn).1, hn]

theorem nodes_add (g : Graph) (node : Node Nat) :
    (g.add node).1.nodes.toList = g.nodes.toList ++ [node] :=
  Array.toList_push

theorem extends_add (g : Graph) (node : Node Nat) : g.Extends (g.add node).1 :=
  ⟨[node], (nodes_add g node).symm⟩

@[simp]
theorem size_add (g : Graph) (node : Node Nat) : (g.add node).1.size = g.size + 1 :=
  Array.size_push _

@[simp]
theorem getElem?_add (g : Graph) (node : Node Nat) :
    (g.add node).1.nodes[g.size]? = some node :=
  Array.getElem?_push_size

theorem lt_size_of_getElem? (h : g.nodes[place]? = some node) : place < g.size :=
  (Array.getElem?_eq_some_iff.1 h).1

theorem exists_getElem? (h : place < g.size) : ∃ node, g.nodes[place]? = some node :=
  ⟨_, Array.getElem?_eq_getElem h⟩

/-- A graph stays well-formed when the operands of the new node stand in it. -/
theorem WellFormed.add (hg : g.WellFormed) (h : ∀ a ∈ node.operands, a < g.size) :
    (g.add node).1.WellFormed := by
  intro i node' hi
  rcases Nat.lt_or_ge i g.size with hlt | hge
  · rw [Graph.add, Array.getElem?_push_lt hlt] at hi
    exact hg i node' (by rw [← hi, Array.getElem?_eq_getElem hlt])
  · have hlt : i < g.size + 1 := size_add g node ▸ lt_size_of_getElem? hi
    obtain rfl : i = g.size := by omega
    rw [getElem?_add, Option.some.injEq] at hi
    exact hi ▸ h

/-- What comes of adding nodes to a graph: a well-formed graph that extends it,
    and a place in it. -/
structure Grown (g : Graph) (result : Graph × Nat) : Prop where
  /-- The result starts with the nodes of the graph. -/
  extension : g.Extends result.1
  /-- The result is well-formed. -/
  wellFormed : result.1.WellFormed
  /-- The place is one of the result. -/
  lt_size : result.2 < result.1.size

theorem WellFormed.add_grown (hg : g.WellFormed) (h : ∀ a ∈ node.operands, a < g.size) :
    g.Grown (g.add node) :=
  ⟨extends_add g node, hg.add h, by rw [size_add]; exact Nat.lt_succ_self _⟩

theorem WellFormed.add_binary_grown (hg : g.WellFormed) (op : Operator) {a b : Nat}
    (ha : a < g.size) (hb : b < g.size) : g.Grown (g.add (.binary op a b)) :=
  hg.add_grown (by simp [Node.operands, ha, hb])

theorem WellFormed.add_negate_grown (hg : g.WellFormed) {a : Nat} (ha : a < g.size) :
    g.Grown (g.add (.negate a)) :=
  hg.add_grown (by simp [Node.operands, ha])

theorem WellFormed.add_constant_grown (hg : g.WellFormed) (value : Float) :
    g.Grown (g.add (.constant value)) :=
  hg.add_grown (by simp [Node.operands])

theorem Grown.trans {result result' : Graph × Nat} (h : g.Grown result)
    (h' : result.1.Grown result') : g.Grown result' :=
  ⟨h.extension.trans h'.extension, h'.wellFormed, h'.lt_size⟩

/-! ## Passes -/

variable {α : Type} [Inhabited α] (join : Node α → α)

theorem toList_take (nodes : Array (Node Nat)) (n : Nat) :
    (nodes.take n).toList = nodes.toList.take n := by
  rw [Array.take_eq_extract, Array.toList_extract, List.extract_eq_take_drop, List.drop_zero,
    Nat.sub_zero]

theorem sweep_succ (h : g.nodes[place]? = some node) :
    g.sweep join (place + 1) =
      (g.sweep join place).push (join (node.map ((g.sweep join place).getD · default))) := by
  have hlist : g.nodes.toList[place]? = some node := by rw [Array.getElem?_toList, h]
  simp only [sweep, ← Array.foldl_toList, toList_take, List.take_add_one, hlist,
    Option.toList_some, List.foldl_append, List.foldl_cons, List.foldl_nil]

theorem size_sweep {n : Nat} (h : n ≤ g.size) : (g.sweep join n).size = n := by
  induction n with
  | zero => simp [sweep]
  | succ n ih =>
    obtain ⟨node, hn⟩ := exists_getElem? h
    rw [sweep_succ join hn, Array.size_push, ih (Nat.le_of_succ_le h)]

/-- A pass gives to a place what it gave to it when it came by. -/
theorem getD_sweep {n : Nat} (hi : place < n) (hn : n ≤ g.size) :
    (g.sweep join n).getD place default = g.fold join place := by
  induction n with
  | zero => exact absurd hi (Nat.not_lt_zero _)
  | succ n ih =>
    rcases Nat.lt_succ_iff_lt_or_eq.1 hi with hlt | rfl
    · obtain ⟨node, hnode⟩ := exists_getElem? hn
      have hle := Nat.le_of_succ_le hn
      have hsize := size_sweep join hle
      rw [sweep_succ join hnode, ← ih hlt hle, Array.getD_eq_getD_getElem?,
        Array.getD_eq_getD_getElem?, Array.getElem?_push_lt (by omega), Array.getElem?_eq_getElem]
    · rfl

/-- A pass gives a node what it makes of the values of its operands. -/
theorem fold_of_getElem? (hg : g.WellFormed) (h : g.nodes[place]? = some node) :
    g.fold join place = join (node.map (g.fold join)) := by
  have hlt := lt_size_of_getElem? h
  have hsize := size_sweep join (Nat.le_of_lt hlt)
  have hoperands : node.map ((g.sweep join place).getD · default) = node.map (g.fold join) :=
    Node.map_congr fun a ha => getD_sweep join (hg place node h a ha) (Nat.le_of_lt hlt)
  rw [fold, sweep_succ join h, hoperands, Array.getD_eq_getD_getElem?, Array.getElem?_push,
    if_pos hsize.symm, Option.getD_some]

/-- Later nodes do not change what a pass gives to a place. -/
theorem Extends.fold_eq (h : g.Extends g') (hlt : place < g.size) :
    g'.fold join place = g.fold join place := by
  obtain ⟨rest, hrest⟩ := h
  have htake : g'.nodes.take (place + 1) = g.nodes.take (place + 1) := by
    rw [← Array.toList_inj, toList_take, toList_take, ← hrest,
      List.take_append_of_le_length hlt]
  simp only [fold, sweep, htake]

/-! ## Expressions -/

/-- The expression at a place, from those at the operands. -/
theorem unfold_of_getElem? (hg : g.WellFormed) (h : g.nodes[place]? = some node) :
    g.unfold place = (node.map g.unfold).toExpr :=
  fold_of_getElem? Node.toExpr hg h

theorem Extends.unfold_eq (h : g.Extends g') (hlt : place < g.size) :
    g'.unfold place = g.unfold place :=
  h.fold_eq Node.toExpr hlt

/-- A pass gives what a function makes of the values of another pass, if it does so of the
    values of a node whenever it does of those of its operands. -/
theorem fold_map {β : Type} [Inhabited β] {join : Node α → α} {join' : Node β → β} {f : α → β}
    (hg : g.WellFormed)
    (hf : ∀ (place : Nat) (node : Node Nat), g.nodes[place]? = some node →
      f (join (node.map (g.fold join))) = join' ((node.map (g.fold join)).map f))
    (hlt : place < g.size) : g.fold join' place = f (g.fold join place) := by
  induction place using Nat.strongRecOn with
  | ind place ih =>
    obtain ⟨node, hn⟩ := exists_getElem? hlt
    have hoperands : node.map (g.fold join') = node.map fun a => f (g.fold join a) :=
      Node.map_congr fun a ha =>
        ih a (hg place node hn a ha) (Nat.lt_trans (hg place node hn a ha) hlt)
    rw [fold_of_getElem? join' hg hn, hoperands, fold_of_getElem? join hg hn, hf place node hn,
      Node.map_map]

/-- A pass that goes by the rule of a function of expressions computes that function. -/
theorem fold_eq {join : Node α → α} {f : Expr → α}
    (hf : ∀ node : Node Expr, f node.toExpr = join (node.map f)) (hg : g.WellFormed)
    (hlt : place < g.size) : g.fold join place = f (g.unfold place) :=
  fold_map hg (fun _ node _ => hf (node.map g.unfold)) hlt

/-- The depth of a place is that of its expression. -/
theorem depth_eq (hg : g.WellFormed) (hlt : place < g.size) :
    g.depth place = (g.unfold place).depth :=
  fold_eq Node.depth_toExpr hg hlt

/-- The operands of a node are less deep than it is. -/
theorem depth_lt_of_mem_operands (hg : g.WellFormed) (h : g.nodes[place]? = some node) {a : Nat}
    (ha : a ∈ node.operands) : g.depth a < g.depth place := by
  have hplace : g.depth place = (node.map g.depth).measure fun a b => max a b + 1 :=
    fold_of_getElem? _ hg h
  rw [hplace]
  cases node with
  | constant value | var => cases ha
  | binary op left right =>
    simp only [Node.operands, List.mem_cons, List.not_mem_nil, or_false] at ha
    rcases ha with rfl | rfl
    · exact Nat.lt_succ_of_le (Nat.le_max_left _ _)
    · exact Nat.lt_succ_of_le (Nat.le_max_right _ _)
  | negate operand =>
    obtain rfl := List.mem_singleton.1 ha
    exact Nat.lt_succ_of_le (Nat.le_max_left _ _)

/-- A place is no deeper than it is far from the start. -/
theorem depth_le (hg : g.WellFormed) (hlt : place < g.size) : g.depth place ≤ place + 1 := by
  induction place using Nat.strongRecOn with
  | ind place ih =>
    obtain ⟨node, hn⟩ := exists_getElem? hlt
    have hoperand (a : Nat) (ha : a ∈ node.operands) : g.depth a ≤ place := by
      have haplace := hg place node hn a ha
      exact Nat.le_trans (ih a haplace (Nat.lt_trans haplace hlt)) haplace
    rw [depth, fold_of_getElem? _ hg hn]
    cases node with
    | constant value | var => exact Nat.succ_le_succ (Nat.zero_le _)
    | binary op a b =>
      have ha := hoperand a (by simp [Node.operands])
      have hb := hoperand b (by simp [Node.operands])
      exact Nat.succ_le_succ (Nat.max_le.2 ⟨ha, hb⟩)
    | negate a =>
      have ha := hoperand a (by simp [Node.operands])
      exact Nat.succ_le_succ (Nat.max_le.2 ⟨ha, Nat.zero_le _⟩)

/-- The expression at a new place, from those at the operands. -/
theorem unfold_add (hg : g.WellFormed) (h : ∀ a ∈ node.operands, a < g.size) :
    (g.add node).1.unfold g.size = (node.map g.unfold).toExpr := by
  rw [unfold_of_getElem? (hg.add h) (getElem?_add g node)]
  exact congrArg _ (Node.map_congr fun a ha => (extends_add g node).unfold_eq (h a ha))

theorem addExpr_grown (hg : g.WellFormed) (e : Expr) : g.Grown (g.addExpr e) := by
  induction e generalizing g with
  | constant value => exact hg.add_constant_grown value
  | var => exact hg.add_grown (by simp [Node.operands])
  | binary op left right ihl ihr =>
    have hl := ihl hg
    have hr := ihr hl.wellFormed
    have hlt := Nat.lt_of_lt_of_le hl.lt_size hr.extension.size_le
    exact (hl.trans hr).trans (hr.wellFormed.add_binary_grown op hlt hr.lt_size)
  | negate operand ih =>
    have ha := ih hg
    exact ha.trans (ha.wellFormed.add_negate_grown ha.lt_size)

/-- An expression stands where adding it says. -/
theorem unfold_addExpr (hg : g.WellFormed) (e : Expr) :
    (g.addExpr e).1.unfold (g.addExpr e).2 = e := by
  induction e generalizing g with
  | constant value => exact unfold_add hg (by simp [Node.operands])
  | var => exact unfold_add hg (by simp [Node.operands])
  | binary op left right ihl ihr =>
    have hl := addExpr_grown hg left
    have hr := addExpr_grown hl.wellFormed right
    have hlt := Nat.lt_of_lt_of_le hl.lt_size hr.extension.size_le
    refine (unfold_add hr.wellFormed (by simp [Node.operands, hlt, hr.lt_size])).trans ?_
    simp only [Node.map, Node.toExpr, hr.extension.unfold_eq hl.lt_size, ihl hg, ihr hl.wellFormed]
  | negate operand ih =>
    have ha := addExpr_grown hg operand
    refine (unfold_add ha.wellFormed (by simp [Node.operands, ha.lt_size])).trans ?_
    simp only [Node.map, Node.toExpr, ih hg]

end Graph

end Derivatives
