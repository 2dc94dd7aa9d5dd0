import Derivatives.Session.Line
import Derivatives.Terminal

/-!
# Sessions

A session takes one line of input after the other, asking for each, until a blank
line or the end of the input (`Session.run`). A line that is rejected does not
end it. At a terminal, each answer is written before the next line is read
(`Session.converse`).
-/

namespace Derivatives.Session

/-- What the user is asked before each line. -/
def banner (options : Options) : List String :=
  if options.json then [] else ["\n\nEnter an expression, or press return to end.\n\n"]

/-- How a session ends after some texts have been written. -/
def endWith : Option Error × Sink → Except Error Unit × Sink
  | (none, sink) => (.ok (), sink)
  | (some error, sink) => (.error error, sink)

/-- The answer to an event; the result of the session, if it ends by it. -/
def respond (options : Options) (sink : Sink) : Event → Option (Except Error Unit) × Sink
  | .line text =>
    match handle options sink text with
    | (.ok .finished, sink) => (some (.ok ()), sink)
    | (.ok _, sink) => (none, sink)
    | (.error error, sink) => (some (.error error), sink)
  | .fault (.failed reason) => (some (.error (.inputFailed (.failed reason))), sink)
  | .fault .endOfInput | .fault .interrupted =>
    let (result, sink) := endWith (sink.writeAll (Outcome.finished.pieces options))
    (some result, sink)

/-- A session on a sequence of events. -/
def run (options : Options) (sink : Sink) : List Event → Except Error Unit × Sink
  | [] => (.ok (), sink)
  | event :: events =>
    match sink.writeAll (banner options) with
    | (some error, sink) => (.error error, sink)
    | (none, sink) =>
      match respond options sink event with
      | (some result, sink) => (result, sink)
      | (none, sink) => run options sink events

/-! ## At a terminal -/

variable {m : Type → Type} [Monad m]

/-- Asks for an event and answers it; the result of the session, if it ends by it. -/
@[specialize]
def turn (terminal : Terminal m) (options : Options) : m (Unit ⊕ Except Error Unit) := do
  terminal.put (Sink.writeAll {} (banner options)).2.written
  let (result, sink) := respond options {} (← terminal.nextEvent)
  terminal.put sink.written
  return result.elim (.inl ()) .inr

/-- A session with the user of a terminal. -/
@[specialize]
def converse (terminal : Terminal m) (options : Options) : m (Except Error Unit) :=
  repeatM (fun _ => turn terminal options) ()

end Derivatives.Session
