import Derivatives.CommandLine
import Derivatives.Proofs.Session

/-!
# The program at a terminal

The program is the same for all terminals, whatever their effects are. At one that has its
input beforehand (`Terminal.scripted`), the effects are those of a state: what has not been read
yet, and what has been written. There, lines are read one by one as the events that the input
makes (`Terminal.exists_nextEvent_scripted`). So a session, although it answers each before it
reads the next, is that on all of them (`Session.converse_scripted`), and the program does what
it makes of its arguments and its input (`CommandLine.interact_scripted`).
-/

namespace Derivatives

/-! ## Lines of the input -/

namespace Event

/-- The first line of bytes, with its line feed. -/
def firstLine (bytes : List UInt8) : List UInt8 :=
  bytes.takeWhile (· ≠ lineFeed) ++ (bytes.dropWhile (· ≠ lineFeed)).take 1

/-- The bytes behind the first line. -/
def behindLine (bytes : List UInt8) : List UInt8 := (bytes.dropWhile (· ≠ lineFeed)).tail

variable {byte : UInt8} {bytes : List UInt8}

theorem firstLine_lineFeed (bytes : List UInt8) : firstLine (lineFeed :: bytes) = [lineFeed] := by
  simp [firstLine]

theorem behindLine_lineFeed (bytes : List UInt8) : behindLine (lineFeed :: bytes) = bytes := by
  simp [behindLine]

theorem firstLine_cons (h : byte ≠ lineFeed) :
    firstLine (byte :: bytes) = byte :: firstLine bytes := by
  simp [firstLine, h]

theorem behindLine_cons (h : byte ≠ lineFeed) :
    behindLine (byte :: bytes) = behindLine bytes := by
  simp [behindLine, h]

theorem length_behindLine_lt (h : bytes ≠ []) : (behindLine bytes).length < bytes.length := by
  have hle := (List.dropWhile_sublist (l := bytes) (· ≠ lineFeed)).length_le
  have hpos := List.length_pos_iff.2 h
  rw [behindLine, List.length_tail]
  omega

theorem isEmpty_firstLine (h : bytes ≠ []) : (firstLine bytes).isEmpty = false := by
  cases bytes with
  | nil => exact absurd rfl h
  | cons byte bytes =>
    by_cases hbyte : byte = lineFeed
    · rw [hbyte, firstLine_lineFeed]
      rfl
    · rw [firstLine_cons hbyte]
      rfl

theorem splitLines_of_ne_nil (h : bytes ≠ []) :
    splitLines bytes = firstLine bytes :: splitLines (behindLine bytes) := by
  have hsplit : bytes.takeWhile (· ≠ lineFeed) ++ bytes.dropWhile (· ≠ lineFeed) = bytes :=
    List.takeWhile_append_dropWhile
  rw [splitLines, firstLine, behindLine]
  split
  · next hnil =>
    rw [hnil, List.append_nil] at hsplit
    rw [hnil, hsplit, if_neg (by simpa using h)]
    simp [splitLines]
  · next byte rest hcons =>
    rw [hcons]
    rfl

theorem ofBytes_nil : ofBytes [] = [.fault .endOfInput] := by
  simp [ofBytes, splitLines]

theorem ofBytes_of_ne_nil (h : bytes ≠ []) :
    ofBytes bytes = .ofLine (firstLine bytes) :: ofBytes (behindLine bytes) := by
  rw [ofBytes, splitLines_of_ne_nil h, List.map_cons, List.cons_append, ← ofBytes]

end Event

/-! ## A scripted terminal -/

/-- What has not been read yet, and what has been written. -/
structure Script where
  /-- The bytes to be read. -/
  input : List UInt8
  /-- The bytes written so far. -/
  output : ByteArray := .empty
  deriving Inhabited

namespace Terminal

/-- A terminal at which the input has been typed beforehand. -/
def scripted : Terminal (StateM Script) where
  read := modifyGet fun script => (script.input.head?, { script with input := script.input.tail })
  put bytes := modify fun script => { script with output := script.output ++ bytes }

variable {input : List UInt8} {output : ByteArray}

theorem bind_stateM {σ α β : Type} (x : StateM σ α) (f : α → StateM σ β) (s : σ) :
    (x >>= f) s = f (x s).1 (x s).2 := rfl

/-- A loop goes on from the state that a round leaves, or ends there. -/
theorem repeatM_stateM {σ α β : Type} [Nonempty σ] [Nonempty β] (f : α → StateM σ (α ⊕ β))
    (a : α) (s : σ) : repeatM f a s = match f a s with
      | (.inl a', s') => repeatM f a' s'
      | (.inr b, s') => (b, s') := by
  rw [repeatM_eq_of_monadTail, repeatM.body, bind_stateM]
  rcases f a s with ⟨a' | b, s'⟩ <;> rfl

/-! ### Reading -/

theorem readOn_scripted_nil (bytes : List UInt8) :
    scripted.readOn bytes ⟨[], output⟩ = (.inr bytes.reverse, ⟨[], output⟩) := rfl

theorem readOn_scripted_cons (bytes : List UInt8) (byte : UInt8) :
    scripted.readOn bytes ⟨byte :: input, output⟩ =
      (if byte = Event.lineFeed then .inr (byte :: bytes).reverse else .inl (byte :: bytes),
        ⟨input, output⟩) := by
  rw [readOn, bind_stateM]
  change (if byte = Event.lineFeed then _ else _ : StateM Script _) ⟨input, output⟩ = _
  split <;> rfl

/-- Reading a line goes on to its end. -/
theorem repeatM_readOn_scripted (bytes : List UInt8) :
    repeatM scripted.readOn bytes ⟨input, output⟩ =
      (bytes.reverse ++ Event.firstLine input, ⟨Event.behindLine input, output⟩) := by
  induction input generalizing bytes with
  | nil =>
    rw [repeatM_stateM, readOn_scripted_nil]
    simp [Event.firstLine, Event.behindLine]
  | cons byte input ih =>
    rw [repeatM_stateM, readOn_scripted_cons]
    by_cases h : byte = Event.lineFeed
    · rw [if_pos h, h, Event.firstLine_lineFeed, Event.behindLine_lineFeed, List.reverse_cons]
    · rw [if_neg h, Event.firstLine_cons h, Event.behindLine_cons h]
      dsimp only
      rw [ih, List.reverse_cons, List.append_assoc, List.singleton_append]

theorem readLine_scripted : scripted.readLine ⟨input, output⟩ =
    (Event.firstLine input, ⟨Event.behindLine input, output⟩) :=
  repeatM_readOn_scripted []

/-- So the next event is read, unless there is nothing left. -/
theorem nextEvent_scripted : scripted.nextEvent ⟨input, output⟩ =
    (if (Event.firstLine input).isEmpty then .fault .endOfInput
      else .ofLine (Event.firstLine input), ⟨Event.behindLine input, output⟩) := by
  rw [nextEvent, bind_stateM, readLine_scripted]
  rfl

/-- What is read is the first of the events that the input makes. -/
theorem exists_nextEvent_scripted (input : List UInt8) : ∃ event rest events,
    (∀ output, scripted.nextEvent ⟨input, output⟩ = (event, ⟨rest, output⟩)) ∧
      Event.ofBytes input = event :: events ∧
        (event = .fault .endOfInput ∨
          rest.length < input.length ∧ events = Event.ofBytes rest) := by
  by_cases h : input = []
  · subst h
    exact ⟨_, _, _, fun output => nextEvent_scripted, Event.ofBytes_nil, .inl rfl⟩
  · refine ⟨_, _, _, fun output => ?_, Event.ofBytes_of_ne_nil h,
      .inr ⟨Event.length_behindLine_lt h, rfl⟩⟩
    rw [nextEvent_scripted, Event.isEmpty_firstLine h]
    rfl

end Terminal

/-! ## Sessions -/

namespace Session

open Terminal

variable {options : Options} {input rest : List UInt8} {sink : Sink} {event : Event}

/-- A turn of a session writes what asks for an event and what answers it. -/
theorem turn_scripted (output : ByteArray)
    (h : ∀ output, scripted.nextEvent ⟨input, output⟩ = (event, ⟨rest, output⟩)) :
    turn scripted options ⟨input, output⟩ =
      ((respond options {} event).1.elim (.inl ()) .inr,
        ⟨rest, output ++ question options ++ (respond options {} event).2.written⟩) := by
  have hbanner : (Sink.writeAll {} (banner options)).2.written = question options := by
    rw [Sink.writeAll_of_unlimited rfl, bytes_banner]
    exact ByteArray.empty_append
  have hput (bytes : ByteArray) (script : Script) : scripted.put bytes script =
      ((), { script with output := script.output ++ bytes }) := rfl
  rw [turn, bind_stateM, hput, bind_stateM, hbanner, h]
  rfl

/-- A session at a terminal is that on the events which the input makes. -/
theorem converse_scripted (options : Options) (hroom : sink.room = none) (input : List UInt8) :
    ∃ rest, converse scripted options ⟨input, sink.written⟩ =
      ((run options sink (Event.ofBytes input)).1,
        ⟨rest, (run options sink (Event.ofBytes input)).2.written⟩) := by
  induction hn : input.length using Nat.strongRecOn generalizing input sink with
  | ind n ih =>
    obtain ⟨event, rest, events, hnext, hevents, hrest⟩ := exists_nextEvent_scripted input
    have hasked := Sink.unlimited_put hroom (question options)
    have hrespond : respond options (sink.put (question options)) event = _ :=
      respond_of_unlimited hasked event
    rw [converse, repeatM_stateM, turn_scripted _ hnext, hevents]
    rcases hresult : respond options {} event with ⟨result | result, answer⟩
    · -- The session goes on, so there has been a line.
      rw [hresult] at hrespond
      rw [run_of_respond_none hroom hrespond]
      rcases hrest with rfl | ⟨hlt, rfl⟩
      · rw [respond_of_end rfl (.inl rfl)] at hresult
        cases congrArg Prod.fst hresult
      · exact ih rest.length (hn ▸ hlt) (Sink.unlimited_put hasked _) rest rfl
    · rw [hresult] at hrespond
      rw [run_of_respond_some hroom hrespond]
      exact ⟨rest, rfl⟩

end Session

/-- What the program does at a terminal is what it makes of its arguments and of the input. -/
theorem CommandLine.interact_scripted (arguments : List String) (input : List UInt8) :
    let ((exitCode, complaint), script) := interact .scripted arguments { input }
    (⟨exitCode, script.output, complaint⟩ : Result) = run arguments input := by
  rw [run, interact]
  cases Options.ofArguments arguments with
  | error error =>
    change Result.mk _ (.empty ++ error.output.toUTF8) _ = _
    rw [ByteArray.empty_append]
  | ok options =>
    dsimp only
    cases options.expression with
    | some expression =>
      change Result.mk _ (.empty ++ (Session.handleOnce options {} expression).2.written) _ = _
      rw [ByteArray.empty_append]
      rfl
    | none =>
      have hroom : ({} : Sink).room = none := rfl
      obtain ⟨rest, hconverse⟩ := Session.converse_scripted options hroom input
      dsimp only
      rw [Terminal.bind_stateM, hconverse]
      rfl

end Derivatives
