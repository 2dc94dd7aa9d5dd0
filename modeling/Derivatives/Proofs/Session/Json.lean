import Derivatives.Proofs.Json
import Derivatives.Proofs.Session.Line

/-!
# Answers as JSON texts

With JSON texts for answers, what is written about a line is one line, too: a JSON text, which has
no control characters whatever the line is, and a line feed behind it (`IsJsonLine`). Nothing is
written about the line that ends the session.

What the text denotes is what became of the line: the reason and the discarded part of it, or the
report on it (`Report.readBack`), in which nothing is missing but the digits of doubles that have
none (`Session.handle_json`).
-/

namespace Derivatives

/-- What the text about a command denotes. -/
def Command.readBack : Command → Json
  | push number => .object [("Push", .ofDouble number)]
  | value x => .object [("Value", .ofDouble x)]
  | operator op => .object [("Operator", .string op.word)]
  | unaryMinus => .string "UnaryMinus"

/-- What the text about a report denotes, member by member. -/
def Report.readBack (report : Report) : List (String × Json) :=
  [("expression", .string report.expression), ("derivative", .string report.derivative),
    ("commands", .array (report.commands.map Command.readBack))] ++
  (report.expressionCommands.toList.map fun commands =>
    ("original_commands", .array (commands.map Command.readBack))) ++
  report.value.toList.map fun value => ("value", .ofDouble value)

/-- A line of a JSON text without control characters that denotes a value. -/
def IsJsonLine (bytes : ByteArray) (value : Json) : Prop :=
  ∃ text : String, bytes = (text ++ "\n").toUTF8 ∧ (∀ c ∈ text.toList, 32 ≤ c.toNat) ∧
    Json.read? text = some value

/-! ## What is shown -/

theorem Command.shown_toJson (command : Command) : command.toJson.shown = command.readBack := by
  cases command <;> rfl

theorem shown_commandsJson (commands : List Command) :
    (commandsJson commands).shown = .array (commands.map Command.readBack) := by
  rw [commandsJson, Json.shown, Json.shownItems_eq_map, List.map_map]
  exact congrArg _ (List.map_congr_left fun command _ => command.shown_toJson)

theorem Report.shown_toJson (report : Report) : report.toJson.shown = .object report.readBack := by
  obtain ⟨expression, derivative, commands, expressionCommands, value⟩ := report
  rw [toJson, readBack, Json.shown, Json.shownMembers_eq_map]
  cases expressionCommands with
  | none => cases value <;> simp [Json.shown, shown_commandsJson]
  | some expressionCommands => cases value <;> simp [Json.shown, shown_commandsJson]

/-- The members of a report are those that are asked for. -/
theorem Formula.map_fst_readBack_report (f : Formula) (options : Options) :
    (f.report options).readBack.map Prod.fst =
      ["expression", "derivative", "commands"] ++
        (if options.listExpression then ["original_commands"] else []) ++
        if options.evaluate then ["value"] else [] := by
  rw [report, Report.readBack]
  cases options.listExpression <;> cases options.evaluate <;> rfl

theorem isJsonLine_render (json : Json) :
    IsJsonLine (Sink.bytes [json.render ++ "\n"]) json.shown := by
  refine ⟨json.render, ?_, ?_, Json.read?_render json⟩
  · rw [Sink.bytes, Sink.bytes, ByteArray.append_empty]
  · rw [Json.render, String.toList_ofList]
    exact json.noControl_characters

namespace Session

variable {options : Options} {sink : Sink}

/-- With JSON texts for answers, nothing is written about a line that ends the session, and one
    line about any other, which denotes what became of that. It is an object: of the reason and
    the discarded part of the line, if that is rejected, and otherwise of the report, with the
    members that are asked for. -/
theorem handle_json (hjson : options.json) (hroom : sink.room = none) (line : String) :
    ∃ outcome bytes, handle options sink line = (.ok outcome, sink.put bytes) ∧
      match outcome with
      | .finished => bytes = .empty
      | .rejected message discarded =>
        IsJsonLine bytes
          (.object [("discarded", .string discarded), ("error", .string message)])
      | .derived report =>
        IsJsonLine bytes (.object report.readBack) ∧
          report.readBack.map Prod.fst = ["expression", "derivative", "commands"] ++
            (if options.listExpression then ["original_commands"] else []) ++
            if options.evaluate then ["value"] else [] := by
  obtain ⟨outcome, h⟩ := exists_process options line
  refine ⟨outcome, Sink.bytes (outcome.pieces options), handle_of_unlimited hroom h, ?_⟩
  cases outcome with
  | finished =>
    rw [Outcome.pieces, if_pos hjson]
    rfl
  | rejected message discarded =>
    rw [Outcome.pieces, if_pos hjson]
    exact isJsonLine_render _
  | derived report =>
    rw [Outcome.pieces, if_pos hjson]
    constructor
    · rw [← report.shown_toJson]
      exact isJsonLine_render _
    · have hblank : ¬ IsBlankLine line := fun hblank => by
        rw [process_of_blank hblank] at h
        cases h
      obtain ⟨f, -, rfl⟩ := (process_eq_derived_iff hblank).1 h
      exact f.map_fst_readBack_report options

/-- A line with a quotation mark and a backslash that are not read, and one with a value that is
    no number. -/
theorem handle_json_extraData_reciprocal :
    (∃ bytes, handle { json := true } {} "2 \"\\" =
      (.ok (.rejected "Extra data after end of expression." "\"\\"), Sink.put {} bytes) ∧
      IsJsonLine bytes (.object [("discarded", .string "\"\\"),
        ("error", .string "Extra data after end of expression.")])) ∧
    ∃ report bytes, handle { json := true, evaluate := true } {} "1 / x" =
      (.ok (.derived report), Sink.put {} bytes) ∧
      IsJsonLine bytes (.object report.readBack) ∧ ("value", .null) ∈ report.readBack := by
  constructor
  · obtain ⟨outcome, bytes, hhandle, hline⟩ :=
      @handle_json { json := true } {} rfl rfl "2 \"\\"
    have houtcome : (handle { json := true } {} "2 \"\\").1 =
        .ok (.rejected "Extra data after end of expression." "\"\\") := by decide +kernel
    rw [hhandle] at houtcome
    obtain rfl := Except.ok.inj houtcome
    exact ⟨bytes, hhandle, hline⟩
  · have hparse : Expr.parse "1 / x" = .ok (.binary .div (.constant 1.0) .var) := by decide +kernel
    have hprocess : process { json := true, evaluate := true } "1 / x" = .ok _ :=
      process_of_parse hparse
    obtain ⟨outcome, bytes, hhandle, hline⟩ :=
      @handle_json { json := true, evaluate := true } {} rfl rfl "1 / x"
    have houtcome := congrArg Prod.fst (hhandle.symm.trans (handle_of_unlimited rfl hprocess))
    obtain rfl := Except.ok.inj houtcome
    -- The value is the quotient of a number by the square of zero.
    have hvalue : Json.ofDouble
        ((Expr.binary .div (.constant 1.0) .var).derivative.eval 0.0) = .null :=
      if_neg (by decide +kernel)
    refine ⟨_, bytes, hhandle, hline.1, ?_⟩
    rw [← hvalue]
    exact List.mem_append_right _ (List.mem_singleton.2 rfl)

end Session

end Derivatives
