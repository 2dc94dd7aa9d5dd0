import Derivatives.Error

/-!
# The input of a session

The input of a session is a sequence of events: lines, and at last the reason why
there is no further one (`Event`). The bytes of a stream give such a sequence
(`Event.ofBytes`): a line ends behind a line feed, or where the bytes end. The
line feed and a carriage return in front of it do not belong to its text, and
its bytes must be UTF-8.
-/

namespace Derivatives

/-- What comes next from the input. -/
inductive Event
  /-- A line. -/
  | line (text : String)
  /-- No line, for a reason. -/
  | fault (fault : InputFault)
  deriving DecidableEq, Repr

namespace Event

/-- The byte that ends a line. -/
def lineFeed : UInt8 := 10

/-- The byte dropped in front of a line feed. -/
def carriageReturn : UInt8 := 13

/-- The bytes without the last one, if that is `byte`. -/
def dropLastIf (byte : UInt8) (bytes : List UInt8) : List UInt8 :=
  if bytes.getLast? = some byte then bytes.dropLast else bytes

/-- The bytes of a line that are its text. -/
def textBytes (bytes : List UInt8) : List UInt8 :=
  if bytes.getLast? = some lineFeed then dropLastIf carriageReturn bytes.dropLast else bytes

/-- The event that the bytes of a line make. -/
def ofLine (bytes : List UInt8) : Event :=
  match String.fromUTF8? ⟨(textBytes bytes).toArray⟩ with
  | some text => .line text
  | none => .fault (.failed "stream did not contain valid UTF-8")

/-- The lines that bytes consist of, each with its line feed. -/
def splitLines (bytes : List UInt8) : List (List UInt8) :=
  match _ : bytes.dropWhile (· ≠ lineFeed) with
  | [] => if bytes.isEmpty then [] else [bytes]
  | byte :: rest => (bytes.takeWhile (· ≠ lineFeed) ++ [byte]) :: splitLines rest
termination_by bytes.length
decreasing_by
  have := (List.dropWhile_sublist (l := bytes) (· ≠ lineFeed)).length_le
  simp_all only [List.length_cons]
  omega

/-- The events that the bytes of a stream make. -/
def ofBytes (bytes : List UInt8) : List Event :=
  (splitLines bytes).map ofLine ++ [.fault .endOfInput]

end Event

end Derivatives
