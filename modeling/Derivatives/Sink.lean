import Derivatives.Error

/-!
# Sinks

Where text is written to (`Sink`): a sink keeps the bytes it has accepted and may
have room for only so many. A text that does not fit is accepted as far as there
is room, and nothing is written after it (`Sink.writeAll`).
-/

namespace Derivatives

/-- A destination of text. -/
structure Sink where
  /-- The bytes accepted so far. -/
  written : ByteArray := .empty
  /-- The number of bytes there is room for, if it is limited. -/
  room : Option Nat := none

namespace Sink

/-- What is said when there is no room left. -/
def full : Error := .outputFailed "no room"

/-- Writes a text, as far as there is room. -/
def write (sink : Sink) (text : String) : Option Error × Sink :=
  let bytes := text.toUTF8
  match sink.room with
  | none => (none, { sink with written := sink.written ++ bytes })
  | some n =>
    if bytes.size ≤ n then (none, ⟨sink.written ++ bytes, some (n - bytes.size)⟩)
    else (some full, ⟨sink.written ++ bytes.extract 0 n, some 0⟩)

/-- Writes texts one after the other, up to the first that does not fit. -/
def writeAll (sink : Sink) : List String → Option Error × Sink
  | [] => (none, sink)
  | text :: texts =>
    match sink.write text with
    | (none, sink) => sink.writeAll texts
    | (some error, sink) => (some error, sink)

end Sink

end Derivatives
