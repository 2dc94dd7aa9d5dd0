import Derivatives.Proofs.Session.Line
import Derivatives.Session

/-!
# What a session writes

Without a limit on what is written, a session asks for each line and answers it, up to the
first blank one or to where no further line can be had. The answer to a line is what is
written about that line alone (`Session.respond_of_not_blank`), so what has been written is
made up of the answers, whatever they are to (`Session.run_append`).

* `Session.transcript`: the questions and answers for lines that do not end a session;
* `Session.run_transcript`: all that a session writes, and how it ends.
-/

namespace Derivatives.Session

/-! ## Texts -/

/-- A text that is written for a reader only. -/
def forReader (options : Options) (text : String) : ByteArray :=
  if options.json then .empty else text.toUTF8

/-- What asks for a line. -/
def question (options : Options) : ByteArray :=
  forReader options "\n\nEnter an expression, or press return to end.\n\n"

/-- What is written at the end of a session. -/
def farewell (options : Options) : ByteArray := forReader options "\n\nDone.\n"

/-- What is written about a line alone. -/
def answer (options : Options) (line : String) : ByteArray := (handle options {} line).2.written

/-- What is written about lines that do not end the session. -/
def transcript (options : Options) : List String → ByteArray
  | [] => .empty
  | line :: lines => question options ++ answer options line ++ transcript options lines

variable {options : Options} {sink : Sink} {line : String} {lines : List String}

theorem bytes_banner (options : Options) : Sink.bytes (banner options) = question options := by
  rw [banner, question, forReader]
  split
  · rfl
  · rw [Sink.bytes, Sink.bytes, ByteArray.append_empty]

theorem bytes_finished (options : Options) :
    Sink.bytes (Outcome.finished.pieces options) = farewell options := by
  rw [Outcome.pieces, farewell, forReader]
  split
  · rfl
  · rw [Sink.bytes, Sink.bytes, ByteArray.append_empty]

theorem answer_eq {outcome : Outcome} (h : process options line = .ok outcome) :
    answer options line = Sink.bytes (outcome.pieces options) := by
  rw [answer, handle_of_unlimited rfl h]
  exact ByteArray.empty_append

/-! ## Steps -/

/-- A blank line ends the session. -/
theorem respond_of_blank (hroom : sink.room = none) (h : IsBlankLine line) :
    respond options sink (.line line) = (some (.ok ()), sink.put (farewell options)) := by
  rw [respond, handle_of_unlimited hroom (process_of_blank h), bytes_finished]

/-- Any other line is answered as it is alone. -/
theorem respond_of_not_blank (hroom : sink.room = none) (h : ¬ IsBlankLine line) :
    respond options sink (.line line) = (none, sink.put (answer options line)) := by
  have hprocess : process options line = .ok _ := process_of_not_blank h
  rw [respond, handle_of_unlimited hroom hprocess, answer_eq hprocess]
  rcases (Cursor.ofLine line).readExpr with ⟨err | e, stop⟩ <;> rfl

/-- The end of the input ends the session as a blank line does, and so does an interruption. -/
theorem respond_of_end (hroom : sink.room = none) {fault : InputFault}
    (h : fault = .endOfInput ∨ fault = .interrupted) :
    respond options sink (.fault fault) = (some (.ok ()), sink.put (farewell options)) := by
  rcases h with rfl | rfl <;>
    rw [respond, Sink.writeAll_of_unlimited hroom, bytes_finished, endWith]

/-- Any event is answered as it is where nothing has been written before. -/
theorem respond_of_unlimited (hroom : sink.room = none) (event : Event) :
    respond options sink event =
      ((respond options {} event).1, sink.put (respond options {} event).2.written) := by
  have hempty : ({} : Sink).room = none := rfl
  have hput (bytes : ByteArray) : (Sink.put {} bytes).written = bytes := ByteArray.empty_append
  cases event with
  | line text =>
    by_cases h : IsBlankLine text
    · rw [respond_of_blank hroom h, respond_of_blank hempty h, hput]
    · rw [respond_of_not_blank hroom h, respond_of_not_blank hempty h, hput]
  | fault fault =>
    cases fault with
    | endOfInput => rw [respond_of_end hroom (.inl rfl), respond_of_end hempty (.inl rfl), hput]
    | interrupted => rw [respond_of_end hroom (.inr rfl), respond_of_end hempty (.inr rfl), hput]
    | failed reason => exact congrArg (Prod.mk _) sink.put_empty.symm

/-! ## Runs -/

variable {event : Event} {result : Except Error Unit} {after : Sink}

/-- What a session writes to ask for an event and to answer it comes in front of the rest: the
    session ends there if the answer ends it. -/
theorem run_of_respond_some (hroom : sink.room = none)
    (h : respond options (sink.put (question options)) event = (some result, after))
    (events : List Event) : run options sink (event :: events) = (result, after) := by
  simp only [run, Sink.writeAll_of_unlimited hroom, bytes_banner, h]

/-- If the answer does not end it, a session goes on with the next event. -/
theorem run_of_respond_none (hroom : sink.room = none)
    (h : respond options (sink.put (question options)) event = (none, after))
    (events : List Event) : run options sink (event :: events) = run options after events := by
  simp only [run, Sink.writeAll_of_unlimited hroom, bytes_banner, h]

/-- Lines that are not blank are answered one after the other. -/
theorem run_append (hroom : sink.room = none) (h : ∀ line ∈ lines, ¬ IsBlankLine line)
    (events : List Event) :
    run options sink (lines.map .line ++ events) =
      run options (sink.put (transcript options lines)) events := by
  induction lines generalizing sink with
  | nil => rw [transcript, Sink.put_empty, List.map_nil, List.nil_append]
  | cons line lines ih =>
    rw [List.forall_mem_cons] at h
    have hline : respond options _ (.line line) = (none, _) :=
      respond_of_not_blank (Sink.unlimited_put hroom (question options)) h.1
    rw [List.map_cons, List.cons_append, run_of_respond_none hroom hline, Sink.put_put,
      ih (Sink.unlimited_put hroom _) h.2, Sink.put_put, transcript]

/-- A blank line ends the session, whatever comes behind it. -/
theorem run_of_blank (hroom : sink.room = none) (h : IsBlankLine line) (events : List Event) :
    run options sink (.line line :: events) =
      (.ok (), sink.put (question options ++ farewell options)) := by
  rw [← Sink.put_put]
  exact run_of_respond_some hroom (respond_of_blank (Sink.unlimited_put hroom _) h) events

/-- So does the end of the input. -/
theorem run_of_end (hroom : sink.room = none) {fault : InputFault}
    (h : fault = .endOfInput ∨ fault = .interrupted) (events : List Event) :
    run options sink (.fault fault :: events) =
      (.ok (), sink.put (question options ++ farewell options)) := by
  rw [← Sink.put_put]
  exact run_of_respond_some hroom (respond_of_end (Sink.unlimited_put hroom _) h) events

/-- Another fault ends it with an error. -/
theorem run_of_failed (hroom : sink.room = none) (reason : String) (events : List Event) :
    run options sink (.fault (.failed reason) :: events) =
      (.error (.inputFailed (.failed reason)), sink.put (question options)) :=
  run_of_respond_some hroom rfl events

/-! ## Whole sessions -/

/-- The lines in front of the first blank one. -/
def beforeBlank (lines : List String) : List String := lines.takeWhile (¬ IsBlankLine ·)

theorem not_isBlankLine_of_mem_beforeBlank : ∀ line ∈ beforeBlank lines, ¬ IsBlankLine line := by
  intro line hline
  have := List.mem_takeWhile_imp hline
  exact of_decide_eq_true this

theorem beforeBlank_eq_self (h : ∀ line ∈ lines, ¬ IsBlankLine line) :
    beforeBlank lines = lines :=
  List.takeWhile_eq_self_iff.2 fun line hline => decide_eq_true (h line hline)

theorem exists_eq_beforeBlank_append (h : ∃ line ∈ lines, IsBlankLine line) :
    ∃ blank rest, IsBlankLine blank ∧ lines = beforeBlank lines ++ blank :: rest := by
  have hsplit : beforeBlank lines ++ lines.dropWhile (¬ IsBlankLine ·) = lines :=
    List.takeWhile_append_dropWhile
  cases hrest : lines.dropWhile (¬ IsBlankLine ·) with
  | nil =>
    obtain ⟨line, hline, hblank⟩ := h
    have := List.dropWhile_eq_nil_iff.1 hrest line hline
    exact absurd hblank (of_decide_eq_true this)
  | cons blank rest =>
    have hblank := List.head?_dropWhile_not (¬ IsBlankLine ·) lines
    rw [hrest] at hsplit hblank
    exact ⟨blank, rest, by simpa using hblank, hsplit.symm⟩

/-- A session without a limit on what is written asks for each line in front of the first blank
    one, if there is one, and answers it as it is alone; then it asks once more, and ends, with
    an error if it has come to a fault other than the end of the input. What comes behind a
    blank line is of no matter. -/
theorem run_transcript (options : Options) (hroom : sink.room = none) (lines : List String)
    (fault : InputFault) (later : List Event) :
    let before := beforeBlank lines
    let written := transcript options before ++ question options
    ((∃ line ∈ lines, IsBlankLine line) ∨ fault = .endOfInput ∨ fault = .interrupted →
      run options sink (lines.map .line ++ .fault fault :: later) =
        (.ok (), sink.put (written ++ farewell options))) ∧
    (∀ reason, (∀ line ∈ lines, ¬ IsBlankLine line) → fault = .failed reason →
      run options sink (lines.map .line ++ .fault fault :: later) =
        (.error (.inputFailed (.failed reason)), sink.put written)) ∧
    ∀ blank events events', IsBlankLine blank →
      run options sink (before.map .line ++ .line blank :: events) =
        run options sink (before.map .line ++ .line blank :: events') := by
  intro before written
  have hroom' := Sink.unlimited_put hroom (transcript options before)
  have hrun (events : List Event) : run options sink (before.map .line ++ events) =
      run options (sink.put (transcript options before)) events :=
    run_append hroom not_isBlankLine_of_mem_beforeBlank events
  refine ⟨fun hend => ?_, fun reason hlines hfault => ?_, fun blank events events' hblank => ?_⟩
  · -- A blank line cuts the session short; without one, all lines are in front of the fault.
    by_cases hexists : ∃ line ∈ lines, IsBlankLine line
    · obtain ⟨blank, rest, hblank, hsplit⟩ := exists_eq_beforeBlank_append hexists
      have hevents : lines.map Event.line = before.map .line ++ .line blank :: rest.map .line := by
        rw [← List.map_cons, ← List.map_append, ← hsplit]
      rw [hevents, List.append_assoc, hrun, List.cons_append, run_of_blank hroom' hblank,
        Sink.put_put, ByteArray.append_assoc]
    · have hlines : before = lines := beforeBlank_eq_self fun line hline hblank =>
        hexists ⟨line, hline, hblank⟩
      rw [← congrArg (List.map Event.line) hlines, hrun,
        run_of_end hroom' (hend.resolve_left hexists), Sink.put_put, ByteArray.append_assoc]
  · have hlines : before = lines := beforeBlank_eq_self hlines
    rw [← congrArg (List.map Event.line) hlines, hrun, hfault, run_of_failed hroom', Sink.put_put]
  · rw [hrun, hrun, run_of_blank hroom' hblank, run_of_blank hroom' hblank]

/-- A line that is rejected does not end a session, and a blank one does, with an error only if
    a fault comes in its place. -/
theorem run_transcript_rejected :
    let written := transcript {} ["x * x", "3 + * 2"] ++ question {}
    let lines := ["x * x", "3 + * 2"].map Event.line
    run {} {} (lines ++ [.line " ", .line "x", .fault .interrupted]) =
      (.ok (), Sink.put {} (written ++ farewell {})) ∧
    run {} {} (lines ++ [.fault (.failed "closed"), .line "x"]) =
      (.error (.inputFailed (.failed "closed")), Sink.put {} written) := by
  have hroom : ({} : Sink).room = none := rfl
  have hblank := (run_transcript {} hroom ["x * x", "3 + * 2", " ", "x"] .interrupted []).1
    (.inr (.inr rfl))
  have hfailed := (run_transcript {} hroom ["x * x", "3 + * 2"] (.failed "closed") [.line "x"]).2.1
    "closed" (by decide) rfl
  have hlines : beforeBlank ["x * x", "3 + * 2", " ", "x"] = ["x * x", "3 + * 2"] := by decide
  have hlines' : beforeBlank ["x * x", "3 + * 2"] = ["x * x", "3 + * 2"] := by decide
  rw [hlines] at hblank
  rw [hlines'] at hfailed
  exact ⟨hblank, hfailed⟩

end Derivatives.Session
