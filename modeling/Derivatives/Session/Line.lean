import Derivatives.Expr.Reading
import Derivatives.Report
import Derivatives.Sink

/-!
# Lines of a session

What becomes of one line of input (`Outcome`): a blank line ends the session, an
expression is reported on, and anything else is rejected, with the reason and
the part of the line that was not read. `Outcome.pieces` is what is written about
it, and `handle` does both.
-/

namespace Derivatives

/-- What becomes of a line. -/
inductive Outcome
  /-- The line is blank: the session is over. -/
  | finished
  /-- The line is an expression. -/
  | derived (report : Report)
  /-- The line is not an expression; `discarded` is the part of it not read. -/
  | rejected (message discarded : String)
  deriving DecidableEq

namespace Outcome

/-- What is written about a line, piece by piece. -/
def pieces (options : Options) : Outcome → List String
  | finished => if options.json then [] else ["\n\nDone.\n"]
  | derived report =>
    if options.json then [report.toJson.render ++ "\n"] else report.pieces options.point
  | rejected message discarded =>
    if options.json then
      [(Json.object [("discarded", .string discarded), ("error", .string message)]).render ++ "\n"]
    else
      ["\n*** Error in input:    " ++ message ++ "\n",
        "*** Discarding input:  " ++ discarded ++ "\n"]

end Outcome

namespace Session

/-- What becomes of a line. -/
def process (options : Options) (line : String) : Except Error Outcome :=
  let cursor := (Cursor.ofLine line).skipBlanks
  if cursor.atEnd then .ok .finished
  else
    match cursor.readExpr with
    | (.ok e, _) => .ok (.derived (.ofExpr options e))
    | (.error error, cursor) =>
      if error.isParseFailure then .ok (.rejected error.message cursor.rest) else .error error

/-- What becomes of a line, which is written to a sink. -/
def handle (options : Options) (sink : Sink) (line : String) : Except Error Outcome × Sink :=
  match process options line with
  | .error error => (.error error, sink)
  | .ok outcome =>
    match sink.writeAll (outcome.pieces options) with
    | (none, sink) => (.ok outcome, sink)
    | (some error, sink) => (.error error, sink)

/-- Handles one line alone; whether it was accepted. -/
def handleOnce (options : Options) (sink : Sink) (line : String) : Except Error Bool × Sink :=
  match handle options sink line with
  | (.ok (.rejected _ _), sink) => (.ok false, sink)
  | (.ok _, sink) => (.ok true, sink)
  | (.error error, sink) => (.error error, sink)

end Session

end Derivatives
