import Derivatives.Proofs.Formula
import Derivatives.Proofs.Graph.Visit

/-!
# Programs with a value are listings

A *command tree* is an expression made of commands (`CommandTree`): its leaves push
numbers, and its inner nodes compute with what their operands leave. Its commands in
post-order are its *listing*.

A program is taken apart by executing it on a stack of trees rather than of numbers: there,
a command joins the topmost trees instead of computing (`CommandTree.assemble`). The trees
on the stack are those whose listings, the lowest one first, make up the program so far
(`assemble_eq_some_iff`), and their results are on the stack of the machine
(`Machine.run_eq_iff_assemble`). Hence, the programs that end with a value are the listings,
and a listing is that of one tree only (`Machine.execute_eq_ok_iff_listing`).

For a given value of the variable, the code of an expression is the listing of a tree of the
same shape, so it determines the expression (`Expr.commands_injective`).

Numbers are equal if their bits are: zero differs from its negative, and what is no number is
one value.
-/

namespace Derivatives

/-- An expression made of commands. -/
inductive CommandTree
  /-- A number is pushed. -/
  | push (number : Float)
  /-- The value of the variable is pushed. -/
  | value (x : Float)
  /-- An operator is applied to what two operands leave. -/
  | operator (op : Operator) (left right : CommandTree)
  /-- What an operand leaves is negated. -/
  | unaryMinus (operand : CommandTree)
  deriving DecidableEq

namespace CommandTree

/-- The commands of a tree in post-order: those of its operands, the left one first, and then
    its own. -/
def listing : CommandTree → List Command
  | push number => [.push number]
  | value x => [.value x]
  | operator op left right => left.listing ++ right.listing ++ [.operator op]
  | unaryMinus operand => operand.listing ++ [.unaryMinus]

/-- The number that a tree leaves. -/
def result : CommandTree → Float
  | push number => number
  | value x => x
  | operator op left right => op.apply left.result right.result
  | unaryMinus operand => -operand.result

/-- The listings of the trees on a stack, the lowest one first. -/
def listings (stack : List CommandTree) : List Command := stack.reverse.flatMap listing

@[simp]
theorem listings_nil : listings [] = [] := rfl

@[simp]
theorem listings_cons (t : CommandTree) (stack : List CommandTree) :
    listings (t :: stack) = listings stack ++ t.listing := by
  simp [listings]

end CommandTree

/-! ## Commands on trees -/

/-- The effect of a command on a stack of trees, the topmost one first, if the stack holds
    enough trees. -/
def Command.join : Command → List CommandTree → Option (List CommandTree)
  | .push number, stack => some (.push number :: stack)
  | .value x, stack => some (.value x :: stack)
  | .operator op, right :: left :: stack => some (.operator op left right :: stack)
  | .unaryMinus, operand :: stack => some (.unaryMinus operand :: stack)
  | .operator _, _ => none
  | .unaryMinus, [] => none

namespace CommandTree

variable {t : CommandTree} {stack stack' : List CommandTree} {program : List Command}
  {command : Command}

/-- A command leaves the results of the trees it joins. -/
theorem act_map_result (command : Command) (stack : List CommandTree) :
    command.act (stack.map result) = (command.join stack).map (List.map result) := by
  rcases stack with - | ⟨right, - | ⟨left, stack⟩⟩ <;> cases command <;> rfl

/-- A command comes behind the listings of what it joins. -/
theorem listings_of_join (h : command.join stack = some stack') :
    listings stack' = listings stack ++ [command] := by
  unfold Command.join at h
  split at h <;> cases h <;> simp [listing]

/-- The stack of trees that a program leaves, if there are always enough of them. -/
def assemble (program : List Command) (stack : List CommandTree) : Option (List CommandTree) :=
  program.foldlM (fun stack command => command.join stack) stack

theorem assemble_cons (command : Command) (program : List Command) (stack : List CommandTree) :
    assemble (command :: program) stack = (command.join stack).bind (assemble program) := rfl

theorem assemble_append (program program' : List Command) (stack : List CommandTree) :
    assemble (program ++ program') stack = (assemble program stack).bind (assemble program') :=
  List.foldlM_append

/-- The listing of a tree puts it on the stack. -/
theorem assemble_listing (t : CommandTree) (stack : List CommandTree) :
    assemble t.listing stack = some (t :: stack) := by
  induction t generalizing stack with
  | push number => rfl
  | value x => rfl
  | operator op left right ihl ihr =>
    rw [listing, assemble_append, assemble_append, ihl, Option.bind_some, ihr]
    rfl
  | unaryMinus operand ih =>
    rw [listing, assemble_append, ih]
    rfl

theorem assemble_listings (stack : List CommandTree) :
    assemble (listings stack) [] = some stack := by
  induction stack with
  | nil => rfl
  | cons t stack ih => rw [listings_cons, assemble_append, ih, Option.bind_some, assemble_listing]

theorem listings_of_assemble (h : assemble program stack = some stack') :
    listings stack' = listings stack ++ program := by
  induction program generalizing stack with
  | nil =>
    obtain rfl := Option.some.inj h
    exact (List.append_nil _).symm
  | cons command program ih =>
    rw [assemble_cons] at h
    obtain ⟨next, hjoin, hprogram⟩ := Option.bind_eq_some_iff.1 h
    rw [ih hprogram, listings_of_join hjoin, List.append_assoc, List.singleton_append]

/-- A program leaves the trees of which it is the listings. -/
theorem assemble_eq_some_iff : assemble program [] = some stack ↔ listings stack = program := by
  constructor
  · exact listings_of_assemble
  · rintro rfl
    exact assemble_listings stack

theorem listing_injective : Function.Injective listing := by
  intro t t' h
  have ht := assemble_listing t []
  rw [h, assemble_listing] at ht
  exact (List.cons.inj (Option.some.inj ht)).1.symm

end CommandTree

/-! ## Programs with a value -/

namespace Machine

open CommandTree

/-- The machine computes the results of the trees that a program leaves, and is stuck where
    there are not enough of them. -/
theorem run_eq_iff_assemble {stack : List CommandTree} {program : List Command}
    {numbers : List Float} :
    run ⟨stack.map result⟩ program = (none, ⟨numbers⟩) ↔
      ∃ stack', assemble program stack = some stack' ∧ stack'.map result = numbers := by
  induction program generalizing stack with
  | nil => simp [run, assemble]
  | cons command program ih =>
    rw [run, act_map_result, assemble_cons]
    cases command.join stack with
    | none => simp
    | some next => exact ih

/-- The programs with a value are those that end with that value alone. -/
theorem execute_eq_ok_iff {machine : Machine} {program : List Command} {value : Float} :
    (machine.execute program).1 = .ok value ↔ run {} program = (none, ⟨[value]⟩) := by
  refine ⟨fun h => ?_, fun h => execute_of_run_singleton h machine⟩
  rcases hrun : run {} program with ⟨- | command, ⟨stack⟩⟩
  · rw [execute, hrun] at h
    rcases stack with - | ⟨number, - | ⟨number', stack⟩⟩
    · cases h
    · obtain rfl := Except.ok.inj h
      rfl
    · cases h
  · rw [execute, hrun] at h
    cases h

end Machine

/-! ## The code of an expression -/

namespace Expr

/-- The tree that the code of an expression is the listing of, for the value `x` of the
    variable. -/
def commandTree (x : Float) : Expr → CommandTree
  | constant value => .push value
  | var => .value x
  | binary op left right => .operator op (left.commandTree x) (right.commandTree x)
  | negate operand => .unaryMinus (operand.commandTree x)

theorem listing_commandTree (x : Float) (e : Expr) : (e.commandTree x).listing = e.commands x := by
  induction e with
  | constant value => rfl
  | var => rfl
  | binary op left right ihl ihr => rw [commandTree, CommandTree.listing, ihl, ihr, commands_binary]
  | negate operand ih => rw [commandTree, CommandTree.listing, ih, commands_negate]

theorem commandTree_injective (x : Float) : Function.Injective (commandTree x) := by
  intro e e' h
  induction e generalizing e' with
  | constant value =>
    cases e' <;> cases h
    rfl
  | var =>
    cases e' <;> cases h
    rfl
  | binary op left right ihl ihr =>
    cases e' with
    | binary op' left' right' =>
      obtain ⟨rfl, hl, hr⟩ := CommandTree.operator.inj h
      rw [ihl hl, ihr hr]
    | constant | var | negate => cases h
  | negate operand ih =>
    cases e' with
    | negate operand' => rw [ih (CommandTree.unaryMinus.inj h)]
    | constant | var | binary => cases h

/-- The code of an expression determines it. -/
theorem commands_injective (x : Float) : Function.Injective (commands x) := by
  intro e e' h
  rw [← listing_commandTree, ← listing_commandTree] at h
  exact commandTree_injective x (CommandTree.listing_injective h)

end Expr

/-- The programs that a machine finds a value for are the listings of trees, each of one tree
    only, and the value is what that tree leaves. So formulas have the same code, which is what
    visiting their nodes gives, just if they stand for the same expression, however they are
    laid out. -/
theorem Machine.execute_eq_ok_iff_listing :
    (∀ (machine : Machine) (program : List Command) (value : Float),
      (machine.execute program).1 = .ok value ↔
        ∃ t : CommandTree, t.listing = program ∧ t.result = value) ∧
    (∀ t t' : CommandTree, t.listing = t'.listing → t = t') ∧
    ∀ (x : Float) (f f' : Formula), (f.commands x = f'.commands x ↔ f.toExpr = f'.toExpr) ∧
      (f.WellFormed →
        f.graph.visit? (Node.commands x) (f.root + 1) f.root = some (f.commands x) ∧
        f.graph.visit? Node.toExpr (f.root + 1) f.root = some f.toExpr) := by
  refine ⟨fun machine program value => ?_, fun t t' h => CommandTree.listing_injective h,
    fun x f f' => ⟨?_, fun hf => ?_⟩⟩
  · rw [execute_eq_ok_iff]
    refine (@run_eq_iff_assemble [] program [value]).trans ⟨?_, ?_⟩
    · rintro ⟨stack, hstack, hvalue⟩
      obtain ⟨t, rfl, rfl⟩ := List.map_eq_singleton_iff.1 hvalue
      exact ⟨t, by simpa using CommandTree.assemble_eq_some_iff.1 hstack, rfl⟩
    · rintro ⟨t, rfl, rfl⟩
      exact ⟨[t], CommandTree.assemble_listing t [], rfl⟩
  · rw [f.commands_eq, f'.commands_eq]
    exact (Expr.commands_injective x).eq_iff
  · exact ⟨(hf.graph.visitable hf.root).commands x,
      Graph.visit?_eq_some Node.toExpr hf.graph hf.root (Nat.lt_succ_self _)⟩

/-- A square with a shared operand, and one with an operand for each factor and a node that
    does not belong to it. -/
theorem Machine.execute_eq_ok_iff_listing_square :
    let f : Formula := ⟨⟨#[.var, .binary .mul 0 0]⟩, 1⟩
    let f' : Formula := ⟨⟨#[.var, .constant 1.0, .var, .binary .mul 0 2]⟩, 3⟩
    f.WellFormed ∧ f.commands 3.0 = f'.commands 3.0 ∧
      f.graph.visit? (Node.commands 3.0) 2 1 = some (f'.commands 3.0) ∧
      (Machine.execute {} (f'.commands 3.0)).1 = .ok (3.0 * 3.0) := by
  intro f f'
  have hf : f.WellFormed := ⟨by decide, by decide⟩
  have htree : f.toExpr = f'.toExpr := by decide
  obtain ⟨hexecute, -, hcode⟩ := Machine.execute_eq_ok_iff_listing
  obtain ⟨hiff, hvisit⟩ := hcode 3.0 f f'
  have hcommands := hiff.2 htree
  refine ⟨hf, hcommands, ?_, (hexecute {} _ _).2 ?_⟩
  · rw [← hcommands]
    exact (hvisit hf).1
  · exact ⟨.operator .mul (.value 3.0) (.value 3.0), by decide, rfl⟩

end Derivatives
