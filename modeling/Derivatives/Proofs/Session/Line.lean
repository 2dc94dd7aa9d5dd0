import Derivatives.Proofs.Cursor
import Derivatives.Proofs.Expr.Infix
import Derivatives.Proofs.Expr.Refusal
import Derivatives.Proofs.Report
import Derivatives.Proofs.Sink
import Derivatives.Session.Line

/-!
# What becomes of a line

A line of blanks ends the session. Any other line becomes what reading it gives: a report
on the expression on it, or a rejection with the reason why it is refused, and the
characters behind the place where it is (`Session.process_of_not_blank`). There is no third
way, as a line is refused for its text only (`Cursor.isParseFailure_of_readExpr`). So
processing a line never fails and follows reading it (`Session.process_follows_parse`).

What is reported of a line is consistent: its code computes the values it states, and the
infix form in it is a line that the same is reported of
(`Session.process_derived_reproducible`).
-/

namespace Derivatives

/-! ## Reasons for a refusal -/

theorem Error.isParseFailure_atOperand (c : Option Char) : (Error.atOperand c).isParseFailure := by
  unfold Error.atOperand
  split
  · rfl
  · split_ifs <;> rfl

theorem Error.isParseFailure_atOperator (level : Nat) :
    (Error.atOperator level).isParseFailure := by
  unfold Error.atOperator
  split_ifs <;> rfl

/-- A text is refused for what it is. -/
theorem Progress.Refuses.isParseFailure {cs : List Char} {p : Progress cs} {refusal : Refusal}
    (h : p.Refuses refusal) : refusal.error.isParseFailure := by
  rcases h.classify with ⟨l, -, n, -, -, rfl⟩ | herr | ⟨-, hmisplaced⟩
  · rfl
  · rw [herr]
    rfl
  · generalize refusal.error = err at hmisplaced
    cases hmisplaced with
    | operand => exact Error.isParseFailure_atOperand _
    | operator => exact Error.isParseFailure_atOperator _

theorem Cursor.isParseFailure_of_readExpr {line : String} {err : Error} {stop : Cursor}
    (h : (Cursor.ofLine line).readExpr = (.error err, stop)) : err.isParseFailure := by
  obtain ⟨p, hp⟩ := Cursor.exists_refuses h
  exact hp.isParseFailure

/-! ## Blank lines -/

/-- A line of blanks. -/
def IsBlankLine (line : String) : Prop := ∀ c ∈ lineCharacters line, isBlank c

instance : DecidablePred IsBlankLine := fun line =>
  decidable_of_iff ((lineCharacters line).all isBlank) List.all_eq_true

variable {line : String} {e : Expr}

theorem atEnd_skipBlanks_iff : (Cursor.ofLine line).skipBlanks.atEnd ↔ IsBlankLine line := by
  rw [Cursor.atEnd, Cursor.after_skipBlanks, List.isEmpty_iff, List.dropWhile_eq_nil_iff]
  rfl

/-- There is no expression on a blank line. -/
theorem not_isBlankLine_of_parse (h : Expr.parse line = .ok e) : ¬ IsBlankLine line := by
  intro hblank
  rw [Expr.parse_eq, Reading.after_of_blank] at h
  · cases h
  · rw [← List.append_nil (lineCharacters line), tokens_blanks_append hblank, tokens_nil]

namespace Session

variable {options : Options}

/-! ## Processing -/

theorem process_of_blank (h : IsBlankLine line) : process options line = .ok .finished :=
  if_pos (atEnd_skipBlanks_iff.2 h)

/-- What becomes of a line that reading gives a result for. -/
def outcomeOf (options : Options) : Except Error Expr × Cursor → Outcome
  | (.ok e, _) => .derived (.ofExpr options e)
  | (.error err, stop) => .rejected err.message stop.rest

theorem process_of_not_blank (h : ¬ IsBlankLine line) :
    process options line = .ok (outcomeOf options (Cursor.ofLine line).readExpr) := by
  have hatEnd : ¬ (Cursor.ofLine line).skipBlanks.atEnd := mt atEnd_skipBlanks_iff.1 h
  rw [process]
  refine (if_neg hatEnd).trans ?_
  rw [Cursor.readExpr_skipBlanks]
  rcases hread : (Cursor.ofLine line).readExpr with ⟨err | e, stop⟩
  · exact if_pos (Cursor.isParseFailure_of_readExpr hread)
  · rfl

theorem process_of_parse (h : Expr.parse line = .ok e) :
    process options line = .ok (.derived (.ofExpr options e)) := by
  rw [process_of_not_blank (not_isBlankLine_of_parse h)]
  rw [Expr.parse] at h
  generalize (Cursor.ofLine line).readExpr = result at h
  obtain ⟨result, stop⟩ := result
  obtain rfl : result = .ok e := h
  rfl

theorem exists_process (options : Options) (line : String) :
    ∃ outcome, process options line = .ok outcome := by
  by_cases h : IsBlankLine line
  · exact ⟨_, process_of_blank h⟩
  · exact ⟨_, process_of_not_blank h⟩

theorem process_eq_finished_iff : process options line = .ok .finished ↔ IsBlankLine line := by
  refine ⟨fun hprocess => ?_, process_of_blank⟩
  by_contra h
  rw [process_of_not_blank h] at hprocess
  generalize (Cursor.ofLine line).readExpr = result at hprocess
  rcases result with ⟨err | e, stop⟩ <;> cases hprocess

theorem process_eq_derived_iff (h : ¬ IsBlankLine line) {report : Report} :
    process options line = .ok (.derived report) ↔
      ∃ f, Formula.parse line = .ok f ∧ f.report options = report := by
  rw [process_of_not_blank h, Formula.parse, Expr.parse]
  generalize (Cursor.ofLine line).readExpr = result
  rcases result with ⟨err | e, stop⟩
  · simp [outcomeOf, Except.map]
  · simp [outcomeOf, Except.map, Formula.report_eq (Formula.ofExpr_wellFormed e),
      Formula.toExpr_ofExpr]

theorem process_eq_rejected_iff (h : ¬ IsBlankLine line) {message discarded : String} :
    process options line = .ok (.rejected message discarded) ↔
      ∃ err, Formula.parse line = .error err ∧ err.message = message ∧
        ((Cursor.ofLine line).readExpr).2.rest = discarded := by
  rw [process_of_not_blank h, Formula.parse, Expr.parse]
  generalize (Cursor.ofLine line).readExpr = result
  rcases result with ⟨err | e, stop⟩
  · simp [outcomeOf, Except.map]
  · simp [outcomeOf, Except.map]

/-! ## Handling -/

variable {sink : Sink}

/-- Without a limit, what becomes of a line is written, after what has been written before. -/
theorem handle_of_unlimited (hroom : sink.room = none) {outcome : Outcome}
    (h : process options line = .ok outcome) :
    handle options sink line = (.ok outcome, sink.put (Sink.bytes (outcome.pieces options))) := by
  simp only [handle, h, Sink.writeAll_of_unlimited hroom]

/-- Without a limit, one line alone is accepted just if it is not rejected. -/
theorem exists_handleOnce (hroom : sink.room = none) (options : Options) (line : String) :
    ∃ accepted after, handleOnce options sink line = (.ok accepted, after) ∧
      (accepted = false ↔
        ∃ message discarded, process options line = .ok (.rejected message discarded)) := by
  obtain ⟨outcome, h⟩ := exists_process options line
  rw [handleOnce, handle_of_unlimited hroom h, h]
  cases outcome with
  | finished | derived report => exact ⟨true, _, rfl, by simp⟩
  | rejected message discarded => exact ⟨false, _, rfl, by simp⟩

/-- Processing a line does not fail, and follows reading it: a line of blanks ends the session,
    and any other becomes the report on the formula on it, or, if there is none, a rejection
    with the reason and the characters from where reading it stops. -/
theorem process_follows_parse (options : Options) (line : String) :
    let stop := ((Cursor.ofLine line).readExpr).2
    (∃ outcome, process options line = .ok outcome) ∧
    (process options line = .ok .finished ↔ ∀ c ∈ lineCharacters line, isBlank c) ∧
    (¬ (∀ c ∈ lineCharacters line, isBlank c) →
      (∀ report, process options line = .ok (.derived report) ↔
        ∃ f, Formula.parse line = .ok f ∧ f.report options = report) ∧
      ∀ message discarded, process options line = .ok (.rejected message discarded) ↔
        ∃ err, Formula.parse line = .error err ∧ err.message = message ∧
          String.ofList ((lineCharacters line).drop stop.position) = discarded) ∧
    stop.before.reverse ++ (lineCharacters line).drop stop.position = lineCharacters line ∧
    ∀ sink, sink.room = none → ∃ accepted after,
      handleOnce options sink line = (.ok accepted, after) ∧
        (accepted = false ↔
          ∃ message discarded, process options line = .ok (.rejected message discarded)) := by
  intro stop
  have hcharacters : stop.characters = lineCharacters line := Cursor.characters_readExpr _
  have hdrop : (lineCharacters line).drop stop.position = stop.after := by
    rw [← hcharacters, Cursor.drop_position]
  rw [hdrop]
  exact ⟨exists_process options line, process_eq_finished_iff,
    fun h => ⟨fun report => process_eq_derived_iff h,
      fun message discarded => process_eq_rejected_iff h⟩,
    hcharacters, fun sink hroom => exists_handleOnce hroom options line⟩

/-- In `3 + * 2`, reading stops in front of the second operator. -/
theorem process_follows_parse_misplacedOperator :
    process {} "3 + * 2\n" = .ok (.rejected "Misplaced operator." "* 2") ∧
      ∃ after, handleOnce {} {} "3 + * 2\n" = (.ok false, after) := by
  have hread : Expr.read (lineCharacters "3 + * 2\n") = .error ⟨.misplacedOperator '*', 4⟩ := by
    decide +kernel
  have hstop := Cursor.readExpr_of_error (c := Cursor.ofLine "3 + * 2\n") hread
  have hparse : Formula.parse "3 + * 2\n" = .error (.misplacedOperator '*') :=
    congrArg (fun result => result.1.map Formula.ofExpr) hstop
  have hblank : ¬ IsBlankLine "3 + * 2\n" := by decide
  obtain ⟨-, -, hline, -, honce⟩ := process_follows_parse {} "3 + * 2\n"
  have hrejected := ((hline hblank).2 "Misplaced operator." "* 2").2
    ⟨_, hparse, rfl, by rw [hstop]; decide⟩
  obtain ⟨accepted, after, hhandle, haccepted⟩ := honce {} rfl
  obtain rfl := haccepted.2 ⟨_, _, hrejected⟩
  exact ⟨hrejected, after, hhandle⟩

/-- What is reported of a line is the report on the formula on it; its code computes the
    values of the derivative and of the formula, and the infix form in it is a line that
    stands for the same expression and that the same is reported of. -/
theorem process_derived_reproducible {report : Report}
    (h : process options line = .ok (.derived report)) :
    ∃ f, Formula.parse line = .ok f ∧
      report.expression = f.render ∧ report.derivative = f.derivative.render ∧
      (∀ machine : Machine,
        (machine.execute report.commands).1 = .ok (f.derivative.eval options.point)) ∧
      report.value = (if options.evaluate then some (f.derivative.eval options.point) else none) ∧
      (report.expressionCommands.isSome ↔ options.listExpression) ∧
      (∀ commands ∈ report.expressionCommands, ∀ machine : Machine,
        (machine.execute commands).1 = .ok (f.eval options.point)) ∧
      (∃ f', Formula.parse report.expression = .ok f' ∧ f'.toExpr = f.toExpr) ∧
      process options report.expression = .ok (.derived report) := by
  have hblank : ¬ IsBlankLine line := fun hblank => by
    rw [process_of_blank hblank] at h
    cases h
  obtain ⟨f, hf, rfl⟩ := (process_eq_derived_iff hblank).1 h
  -- What is reported depends on the expression only, and that is read again from its infix form.
  obtain ⟨e, he, rfl⟩ := Formula.exists_of_parse hf
  have hrender := Expr.parse_render_of_parse he
  have hreport := Formula.report_eq (Formula.ofExpr_wellFormed e) options
  rw [Formula.toExpr_ofExpr] at hreport
  have hexpression : ((Formula.ofExpr e).report options).expression = e.render := by
    rw [hreport, Report.ofExpr]
  refine ⟨.ofExpr e, hf, ?_, ?_, (Formula.ofExpr e).execute_commands_report options, ?_, ?_, ?_,
    ?_, ?_⟩
  · rw [Formula.report]
  · rw [Formula.report]
  · rw [Formula.report]
  · rw [Option.isSome_iff_exists]
    simp only [← Option.mem_def, Formula.mem_expressionCommands_report, exists_and_left,
      exists_eq', and_true]
  · intro commands hcommands machine
    obtain ⟨-, rfl⟩ := (Formula.mem_expressionCommands_report _).1 hcommands
    exact (Formula.ofExpr e).execute_commands options.point machine
  · obtain ⟨f', hf', htree⟩ := Formula.exists_parse_iff.2 hrender
    rw [hexpression]
    exact ⟨f', hf', htree.trans (Formula.toExpr_ofExpr e).symm⟩
  · rw [hexpression, hreport]
    exact process_of_parse hrender

/-- The report on a quotient with all that can be asked for, and on the infix form in it. -/
theorem process_derived_reproducible_quotient :
    let options : Options := { point := 2.0, listExpression := true, evaluate := true }
    ∃ report value, process options "(1 + x) / x\n" = .ok (.derived report) ∧
      (∀ machine : Machine, (machine.execute report.commands).1 = .ok value) ∧
      report.value = some value ∧ report.expressionCommands.isSome ∧
      process options report.expression = .ok (.derived report) := by
  intro options
  have hparse : Expr.parse "(1 + x) / x\n" =
      .ok (.binary .div (.binary .add (.constant 1.0) .var) .var) := by decide +kernel
  obtain ⟨f, -, -, -, hcommands, hvalue, hexpression, -, -, hagain⟩ :=
    process_derived_reproducible (process_of_parse hparse)
  exact ⟨_, _, process_of_parse hparse, hcommands, hvalue, hexpression.2 rfl, hagain⟩

end Session

end Derivatives
