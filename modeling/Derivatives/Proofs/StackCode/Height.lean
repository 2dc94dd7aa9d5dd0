import Derivatives.Proofs.StackCode
import Mathlib.Algebra.Ring.Int.Defs
import Mathlib.Data.List.Induction

/-!
# Heights of the stack

A command takes some of the topmost values (`Command.arity`) and leaves one, so the height of
the stack after a program can be told without executing it (`height`). A program is *supplied*
if none of its commands meets fewer values than it takes (`Supplied`). Then it is executed to
its end, and leaves a stack of that height (`Machine.exists_run_of_supplied`). Otherwise there
is a first command that falls short (`exists_of_not_supplied`), and the machine is stuck there
(`Machine.exists_run_of_lt_arity`).

So it is the heights that tell how a program ends, not the numbers in it, nor what the machine
has executed before (`Machine.execute_by_height`).
-/

namespace Derivatives

namespace Command

/-- The number of values that a command takes from the stack. -/
def arity : Command → Nat
  | push _ | value _ => 0
  | operator _ => 2
  | unaryMinus => 1

/-- What a command adds to the height of the stack. -/
def lift : Command → Int
  | push _ | value _ => 1
  | operator _ => -1
  | unaryMinus => 0

/-- What is left of a command when the number in it is taken for zero. -/
def shape : Command → Command
  | push _ | value _ => push 0.0
  | operator op => operator op
  | unaryMinus => unaryMinus

variable {command : Command} {stack stack' : List Float}

theorem act_eq_none_iff : command.act stack = none ↔ stack.length < command.arity := by
  rcases stack with - | ⟨right, - | ⟨left, stack⟩⟩ <;> cases command <;> simp [act, arity]

theorem length_of_act (h : command.act stack = some stack') :
    (stack'.length : Int) = stack.length + command.lift := by
  unfold act at h
  split at h <;> cases h <;> simp only [List.length_cons, lift] <;> omega

@[simp]
theorem arity_shape (command : Command) : command.shape.arity = command.arity := by
  cases command <;> rfl

@[simp]
theorem lift_shape (command : Command) : command.shape.lift = command.lift := by
  cases command <;> rfl

/-- A command that takes something from the stack has no number in it. -/
theorem shape_of_arity_pos (h : 0 < command.arity) : command.shape = command := by
  cases command with
  | push | value => exact absurd h (Nat.lt_irrefl 0)
  | operator | unaryMinus => rfl

end Command

/-! ## Heights -/

/-- The height of the stack after a program that starts on an empty one. -/
def height (program : List Command) : Int := (program.map Command.lift).sum

/-- No command of a program meets fewer values than it takes. -/
def Supplied (program : List Command) : Prop :=
  ∀ front command back, program = front ++ command :: back → (command.arity : Int) ≤ height front

variable {program front back : List Command} {command : Command}

theorem height_concat (program : List Command) (command : Command) :
    height (program ++ [command]) = height program + command.lift := by
  simp [height]

theorem height_map_shape (program : List Command) :
    height (program.map Command.shape) = height program := by
  rw [height, height, List.map_map]
  exact congrArg List.sum (List.map_congr_left fun command _ => command.lift_shape)

theorem supplied_nil : Supplied [] := fun front _ _ h =>
  absurd h.symm (List.append_ne_nil_of_right_ne_nil front (List.cons_ne_nil _ _))

/-- One more command is supplied if there are enough values behind the others. -/
theorem supplied_concat_iff :
    Supplied (program ++ [command]) ↔
      Supplied program ∧ (command.arity : Int) ≤ height program := by
  constructor
  · intro h
    refine ⟨fun front command' back hprogram => ?_, h program command [] rfl⟩
    exact h front command' (back ++ [command]) (by rw [hprogram]; simp)
  · rintro ⟨h, hle⟩ front command' back hprogram
    rcases List.eq_nil_or_concat back with rfl | ⟨back, last, rfl⟩
    · obtain ⟨rfl, hlast⟩ := List.append_inj' hprogram rfl
      obtain rfl := (List.cons.inj hlast).1
      exact hle
    · rw [List.concat_eq_append, ← List.cons_append, ← List.append_assoc] at hprogram
      exact h front command' back (List.append_inj' hprogram rfl).1

/-- In a program that is not supplied, there is a first command that falls short. -/
theorem exists_of_not_supplied (h : ¬ Supplied program) :
    ∃ front command back, program = front ++ command :: back ∧ Supplied front ∧
      height front < command.arity := by
  induction program using List.reverseRecOn with
  | nil => exact absurd supplied_nil h
  | append_singleton program last ih =>
    by_cases hprogram : Supplied program
    · have hlt : height program < last.arity :=
        Int.not_le.1 fun hle => h (supplied_concat_iff.2 ⟨hprogram, hle⟩)
      exact ⟨program, last, [], rfl, hprogram, hlt⟩
    · obtain ⟨front, command, back, rfl, hfront, hlt⟩ := ih hprogram
      exact ⟨front, command, back ++ [last], by simp, hfront, hlt⟩

/-! ## Shapes -/

theorem supplied_map_shape_iff : Supplied (program.map Command.shape) ↔ Supplied program := by
  constructor
  · rintro h front command back rfl
    have := h (front.map Command.shape) command.shape (back.map Command.shape) (by simp)
    rwa [height_map_shape, Command.arity_shape] at this
  · intro h front command back hprogram
    obtain ⟨front, rest, rfl, rfl, hrest⟩ := List.map_eq_append_iff.1 hprogram
    obtain ⟨command, back, rfl, rfl, rfl⟩ := List.map_eq_cons_iff.1 hrest
    rw [height_map_shape, Command.arity_shape]
    exact h front command back rfl

namespace Machine

/-! ## Execution -/

/-- A program that is supplied is executed to its end. -/
theorem exists_run_of_supplied (h : Supplied program) :
    ∃ stack, run {} program = (none, ⟨stack⟩) ∧ (stack.length : Int) = height program := by
  induction program using List.reverseRecOn with
  | nil => exact ⟨[], rfl, rfl⟩
  | append_singleton program last ih =>
    obtain ⟨hprogram, hle⟩ := supplied_concat_iff.1 h
    obtain ⟨stack, hrun, hlength⟩ := ih hprogram
    cases hact : last.act stack with
    | none =>
      have := Command.act_eq_none_iff.1 hact
      omega
    | some stack' =>
      refine ⟨stack', ?_, ?_⟩
      · rw [run_append hrun, run, hact]
        rfl
      · rw [height_concat, ← hlength, Command.length_of_act hact]

/-- The machine is stuck at a command that falls short. -/
theorem exists_run_of_lt_arity (h : Supplied front) (hlt : height front < command.arity)
    (back : List Command) :
    ∃ machine, run {} (front ++ command :: back) = (some command, machine) := by
  obtain ⟨stack, hrun, hlength⟩ := exists_run_of_supplied h
  have hact : command.act stack = none := Command.act_eq_none_iff.2 (by omega)
  exact ⟨⟨stack⟩, by rw [run_append hrun, run, hact]⟩

theorem execute_eq (machine : Machine) (program : List Command) :
    machine.execute program = execute {} program := rfl

/-- A program has a value if it is supplied and ends on a height of one. -/
theorem exists_execute_eq_ok (h : Supplied program) (hheight : height program = 1) :
    ∃ value, (execute {} program).1 = .ok value := by
  obtain ⟨stack, hrun, hlength⟩ := exists_run_of_supplied h
  obtain ⟨value, rfl⟩ := List.length_eq_one_iff.1 (by omega : stack.length = 1)
  exact ⟨value, execute_of_run_singleton hrun {}⟩

/-- The errors of programs, from the heights. -/
inductive Fails (program : List Command) : Error → Prop
  /-- A command falls short that is the first to do so. -/
  | short {front back : List Command} {command : Command} : program = front ++ command :: back →
      Supplied front → height front < command.arity → Fails program (.stackUnderflow command.text)
  /-- The program is supplied, but does not end on a height of one. -/
  | unbalanced {n : Nat} : Supplied program → height program = n → n ≠ 1 →
      Fails program (.unbalancedStack n)

theorem Fails.execute_eq_error {err : Error} (h : Fails program err) :
    (execute {} program).1 = .error err := by
  cases h with
  | short hprogram hfront hlt =>
    obtain ⟨machine, hrun⟩ := exists_run_of_lt_arity hfront hlt _
    rw [execute, hprogram, hrun]
  | unbalanced hsupplied hheight hne =>
    obtain ⟨stack, hrun, hlength⟩ := exists_run_of_supplied hsupplied
    obtain rfl : stack.length = _ := Int.ofNat.inj (hlength.trans hheight)
    exact execute_of_run_length_ne hrun hne {}

/-- A program without a value fails. -/
theorem exists_fails (h : ¬ (Supplied program ∧ height program = 1)) :
    ∃ err, Fails program err := by
  by_cases hsupplied : Supplied program
  · obtain ⟨stack, -, hlength⟩ := exists_run_of_supplied hsupplied
    have hne : stack.length ≠ 1 := fun hone => h ⟨hsupplied, by omega⟩
    exact ⟨_, .unbalanced hsupplied hlength.symm hne⟩
  · obtain ⟨front, command, back, hprogram, hfront, hlt⟩ := exists_of_not_supplied hsupplied
    exact ⟨_, .short hprogram hfront hlt⟩

theorem execute_eq_error_iff {err : Error} :
    (execute {} program).1 = .error err ↔ Fails program err := by
  refine ⟨fun h => ?_, Fails.execute_eq_error⟩
  by_cases hvalue : Supplied program ∧ height program = 1
  · obtain ⟨value, hok⟩ := exists_execute_eq_ok hvalue.1 hvalue.2
    rw [hok] at h
    cases h
  · obtain ⟨err', herr'⟩ := exists_fails hvalue
    have := herr'.execute_eq_error
    rw [h] at this
    obtain rfl := Except.error.inj this
    exact herr'

/-- What a program fails for does not depend on the numbers in it. -/
theorem fails_map_shape_iff {err : Error} :
    Fails (program.map Command.shape) err ↔ Fails program err := by
  constructor
  · intro h
    cases h with
    | short hprogram hfront hlt =>
      obtain ⟨front, rest, rfl, rfl, hrest⟩ := List.map_eq_append_iff.1 hprogram
      obtain ⟨command, back, rfl, rfl, rfl⟩ := List.map_eq_cons_iff.1 hrest
      rw [supplied_map_shape_iff] at hfront
      rw [height_map_shape, Command.arity_shape] at hlt
      -- A height is the length of a stack, so a command that finds too few takes one at least,
      -- and has no number in it.
      obtain ⟨stack, -, hlength⟩ := exists_run_of_supplied hfront
      rw [Command.shape_of_arity_pos (by omega)]
      exact .short rfl hfront hlt
    | unbalanced hsupplied hheight hne =>
      rw [supplied_map_shape_iff] at hsupplied
      rw [height_map_shape] at hheight
      exact .unbalanced hsupplied hheight hne
  · intro h
    cases h with
    | @short front back command hprogram hfront hlt =>
      obtain ⟨stack, -, hlength⟩ := exists_run_of_supplied hfront
      have hcommand : command.shape = command := Command.shape_of_arity_pos (by omega)
      have hmap : program.map Command.shape =
          front.map Command.shape ++ command :: back.map Command.shape := by
        rw [hprogram, List.map_append, List.map_cons, hcommand]
      exact .short hmap (supplied_map_shape_iff.2 hfront) (by rwa [height_map_shape])
    | unbalanced hsupplied hheight hne =>
      exact .unbalanced (supplied_map_shape_iff.2 hsupplied) (by rwa [height_map_shape]) hne

/-- Programs executed in turn give what each gives on a new machine. -/
theorem executeAll_eq_map (machine : Machine) (programs : List (List Command)) :
    machine.executeAll programs = programs.map fun program => (execute {} program).1 := by
  induction programs generalizing machine with
  | nil => rfl
  | cons program programs ih =>
    rw [executeAll, List.map_cons, ← execute_eq machine]
    exact congrArg _ (ih _)

/-- Whatever a machine has executed before, a program ends on it as on a new one: it fails if a
    command meets fewer values than it takes, for the first one that does, or else if it does
    not end on a height of one; and otherwise it has a value. So programs that differ in nothing
    but numbers fail alike. -/
theorem execute_by_height :
    (∀ (machine : Machine) (programs : List (List Command)),
      machine.executeAll programs = programs.map fun program => (execute {} program).1) ∧
    (∀ (machine : Machine) (program : List Command),
      (∀ err, (machine.execute program).1 = .error err ↔ Fails program err) ∧
      ((∃ value, (machine.execute program).1 = .ok value) ↔
        Supplied program ∧ height program = 1)) ∧
    ∀ (machine machine' : Machine) (program program' : List Command),
      program.map Command.shape = program'.map Command.shape → ∀ err,
        (machine.execute program).1 = .error err ↔ (machine'.execute program').1 = .error err := by
  refine ⟨executeAll_eq_map, fun machine program => ⟨fun err => execute_eq_error_iff, ?_⟩,
    fun machine machine' program program' hshape err => ?_⟩
  · refine ⟨fun ⟨value, hok⟩ => ?_, fun h => exists_execute_eq_ok h.1 h.2⟩
    by_contra hnot
    obtain ⟨err, herr⟩ := exists_fails hnot
    rw [execute_eq, herr.execute_eq_error] at hok
    cases hok
  · rw [execute_eq machine, execute_eq machine', execute_eq_error_iff, execute_eq_error_iff,
      ← fails_map_shape_iff, hshape, fails_map_shape_iff]

/-- With a single value on the stack, a division falls short, be that value a number or none,
    and whatever the machine holds. -/
theorem execute_by_height_division :
    let program : List Command := [.push 1.0, .operator .div, .push 2.0]
    let program' : List Command := [.value Number.nan, .operator .div, .push 0.0]
    program.map Command.shape = program'.map Command.shape ∧
      (execute ⟨[3.0, 4.0]⟩ program').1 = .error (.stackUnderflow "Operator /") := by
  intro program program'
  have hshape : program.map Command.shape = program'.map Command.shape := rfl
  obtain ⟨-, -, hfail⟩ := execute_by_height
  exact ⟨hshape, (hfail {} ⟨[3.0, 4.0]⟩ program program' hshape _).1 (by decide)⟩

end Machine

end Derivatives
