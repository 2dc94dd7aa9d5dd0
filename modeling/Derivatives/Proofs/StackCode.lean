import Derivatives.Formula
import Derivatives.Proofs.Graph
import Mathlib.Logic.Function.Iterate

/-!
# Stack code computes values

The code of an expression, run on any stack, leaves the value of the expression
on top of it and never meets too few values (`Expr.run_commands`). It works above
the stack it finds: at any time there are only values of its own on top of it, no
more than the expression has levels (`Expr.exists_run_of_prefix`). That these are
the same for all stacks, the empty one included, says that no cell below is ever
read or replaced.

Code put one after the other leaves one value each, so a program made of the
code of several expressions ends with as many values
(`Graph.run_commands_places`).
-/

namespace Derivatives

namespace Machine

variable {machine machine' : Machine} {program : List Command}

/-- Commands after others run on the machine that these leave. -/
theorem run_append (h : machine.run program = (none, machine')) (rest : List Command) :
    machine.run (program ++ rest) = machine'.run rest := by
  induction program generalizing machine with
  | nil =>
    obtain rfl : machine = machine' := congrArg Prod.snd h
    rfl
  | cons command program ih =>
    rw [List.cons_append, run]
    rw [run] at h
    cases hact : command.act machine.stack with
    | none => rw [hact] at h; cases h
    | some stack => rw [hact] at h; exact ih h

/-- A program that ends with one value gives it. -/
theorem execute_of_run_singleton {value : Float} (h : run {} program = (none, ⟨[value]⟩))
    (machine : Machine) : (machine.execute program).1 = .ok value := by
  rw [execute, h]

/-- A program that ends with another number of values gives that number. -/
theorem execute_of_run_length_ne {stack : List Float} (h : run {} program = (none, ⟨stack⟩))
    (hlen : stack.length ≠ 1) (machine : Machine) :
    (machine.execute program).1 = .error (.unbalancedStack stack.length) := by
  rw [execute, h]
  rcases stack with - | ⟨value, - | ⟨value', stack⟩⟩
  · rfl
  · exact absurd rfl hlen
  · rfl

end Machine

namespace Expr

variable {x : Float}

theorem depth_pos (e : Expr) : 0 < e.depth := by
  cases e <;> exact Nat.succ_pos _

/-- The code of an expression puts its value on the stack. -/
theorem run_commands (e : Expr) (stack : List Float) :
    Machine.run ⟨stack⟩ (e.commands x) = (none, ⟨e.eval x :: stack⟩) := by
  induction e generalizing stack with
  | constant value => rfl
  | var => rfl
  | binary op left right ihl ihr =>
    rw [commands_binary, List.append_assoc, Machine.run_append (ihl stack),
      Machine.run_append (ihr _)]
    rfl
  | negate operand ih =>
    rw [commands_negate, Machine.run_append (ih stack)]
    rfl

/-- Wherever the code of an expression is interrupted, it has left a few values
    of its own on the stack, and all else below them as it was. -/
theorem exists_run_of_prefix {e : Expr} {program : List Command}
    (h : program <+: e.commands x) :
    ∃ own : List Float, own.length ≤ e.depth ∧
      ∀ stack, Machine.run ⟨stack⟩ program = (none, ⟨own ++ stack⟩) := by
  -- All of the code leaves one value, whatever the expression.
  have hall (e : Expr) : ∃ own : List Float, own.length ≤ e.depth ∧
      ∀ stack, Machine.run ⟨stack⟩ (e.commands x) = (none, ⟨own ++ stack⟩) :=
    ⟨[e.eval x], e.depth_pos, e.run_commands⟩
  induction e generalizing program with
  | constant value | var =>
    rcases (@List.prefix_concat_iff _ program [] _).1 h with rfl | h
    · exact hall _
    · obtain rfl := List.prefix_nil.1 h
      exact ⟨[], Nat.zero_le _, fun _ => rfl⟩
  | negate operand ih =>
    rw [commands_negate, List.prefix_concat_iff, ← commands_negate] at h
    rcases h with rfl | h
    · exact hall _
    · obtain ⟨own, hlen, hrun⟩ := ih h
      exact ⟨own, Nat.le_succ_of_le hlen, hrun⟩
  | binary op left right ihl ihr =>
    rw [commands_binary, List.prefix_concat_iff, ← commands_binary] at h
    rcases h with rfl | ⟨rest, h⟩
    · exact hall _
    rcases List.append_eq_append_iff.1 h with ⟨rest', hl, -⟩ | ⟨program', rfl, hr⟩
    · -- Within the code of the left operand.
      obtain ⟨own, hlen, hrun⟩ := ihl ⟨rest', hl.symm⟩
      exact ⟨own, by rw [depth]; omega, hrun⟩
    · -- Within that of the right one: the value of the left one waits below.
      obtain ⟨own, hlen, hrun⟩ := ihr ⟨rest, hr.symm⟩
      refine ⟨own ++ [left.eval x], ?_, fun stack => ?_⟩
      · rw [List.length_append, List.length_singleton, depth]
        omega
      · rw [Machine.run_append (left.run_commands stack), hrun, List.append_assoc]
        rfl

end Expr

/-- The value of a node, from those of its operands. -/
def Node.eval (x : Float) : Node Float → Float
  | constant value => value
  | var => x
  | binary op u v => op.apply u v
  | negate u => -u

theorem Node.eval_toExpr (x : Float) (node : Node Expr) :
    node.toExpr.eval x = (node.map (Expr.eval x)).eval x := by
  cases node <;> rfl

namespace Graph

variable {g : Graph} {x : Float}

/-- The value at a place, from those at the operands. -/
theorem eval_unfold {place : Nat} {node : Node Nat} (hg : g.WellFormed)
    (h : g.nodes[place]? = some node) :
    (g.unfold place).eval x = (node.map fun a => (g.unfold a).eval x).eval x := by
  rw [unfold_of_getElem? hg h, Node.eval_toExpr, Node.map_map]

@[simp]
theorem commands_singleton (g : Graph) (x : Float) (place : Nat) :
    g.commands x [place] = (g.unfold place).commands x := List.append_nil _

/-- The code of several expressions leaves their values, the last one on top. -/
theorem run_commands_places (places : List Nat) (stack : List Float) :
    Machine.run ⟨stack⟩ (g.commands x places) =
      (none, ⟨(places.map fun place => (g.unfold place).eval x).reverse ++ stack⟩) := by
  induction places generalizing stack with
  | nil => rfl
  | cons place places ih =>
    rw [commands, List.flatMap_cons, Machine.run_append ((g.unfold place).run_commands stack),
      ← commands, ih, List.map_cons, List.reverse_cons, List.append_assoc]
    rfl

/-- What a program made of the code of several expressions gives. -/
theorem execute_commands (machine : Machine) (places : List Nat) :
    (machine.execute (g.commands x places)).1 = match places with
      | [place] => .ok ((g.unfold place).eval x)
      | _ => .error (.unbalancedStack places.length) := by
  have hrun := run_commands_places (g := g) (x := x) places []
  rcases places with - | ⟨place, - | ⟨place', places⟩⟩
  · exact Machine.execute_of_run_length_ne hrun Nat.zero_ne_one machine
  · exact Machine.execute_of_run_singleton hrun machine
  · refine (Machine.execute_of_run_length_ne hrun ?_ machine).trans ?_
    · simp
    · simp

end Graph

/-- The code of a formula computes its value, on any machine. -/
theorem Formula.execute_commands (f : Formula) (x : Float) (machine : Machine) :
    (machine.execute (f.commands x)).1 = .ok (f.eval x) :=
  Graph.execute_commands machine [f.root]

namespace Graph

variable {g : Graph}

/-- The code of the expression at a place computes its value, on top of any stack
    and within the depth of the place; so does that of a formula and of its
    iterated derivatives, as one program, and that of several places leaves as
    many values. -/
theorem commands_compute_eval (hg : g.WellFormed) {place : Nat} (hlt : place < g.size)
    (x : Float) :
    (∀ node, g.nodes[place]? = some node →
      (g.unfold place).eval x = (node.map fun a => (g.unfold a).eval x).eval x) ∧
    (∀ stack, Machine.run ⟨stack⟩ (g.commands x [place]) =
      (none, ⟨(g.unfold place).eval x :: stack⟩)) ∧
    (∀ program, program <+: g.commands x [place] → ∃ own : List Float,
      own.length ≤ g.depth place ∧
        ∀ stack, Machine.run ⟨stack⟩ program = (none, ⟨own ++ stack⟩)) ∧
    (∀ (f : Formula) (n : Nat) (machine : Machine),
      (machine.execute ((Formula.derivative^[n] f).commands x)).1 =
        .ok ((Formula.derivative^[n] f).eval x)) ∧
    ∀ (places : List Nat) (machine : Machine),
      (machine.execute (g.commands x places)).1 = match places with
        | [place] => .ok ((g.unfold place).eval x)
        | _ => .error (.unbalancedStack places.length) := by
  refine ⟨fun node hn => eval_unfold hg hn, fun stack => ?_, fun program h => ?_,
    fun f n => (Formula.derivative^[n] f).execute_commands x,
    fun places machine => execute_commands machine places⟩
  · rw [commands_singleton]
    exact (g.unfold place).run_commands stack
  · rw [commands_singleton] at h
    rw [depth_eq hg hlt]
    exact Expr.exists_run_of_prefix h

/-- A quotient that shares an operand. -/
theorem commands_compute_eval_quotient :
    let g : Graph := ⟨#[.var, .constant 1.0, .binary .sub 1 0, .binary .div 0 2]⟩
    g.WellFormed ∧ 3 < g.size ∧
      (∀ stack, Machine.run ⟨stack⟩ (g.commands 3.0 [3]) =
        (none, ⟨(g.unfold 3).eval 3.0 :: stack⟩)) ∧
      ∀ program, program <+: g.commands 3.0 [3] → ∃ own : List Float,
        own.length ≤ g.depth 3 ∧
          ∀ stack, Machine.run ⟨stack⟩ program = (none, ⟨own ++ stack⟩) := by
  intro g
  have hg : g.WellFormed := by decide
  have hlt : 3 < g.size := by decide
  obtain ⟨-, hrun, hheight, -⟩ := commands_compute_eval hg hlt 3.0
  exact ⟨hg, hlt, hrun, hheight⟩

end Graph

end Derivatives
