import Derivatives.Session.Input

/-!
# Terminals

Where the program meets the user (`Terminal`): bytes are read from it one by one, and written to
it, as effects of a monad of its own. What is read up to a line feed makes an event
(`Terminal.nextEvent`).
-/

namespace Derivatives

/-- Reading and writing bytes, by the effects of `m`. -/
structure Terminal (m : Type → Type) where
  /-- Reads the next byte, if there is one. -/
  read : m (Option UInt8)
  /-- Writes bytes at once. -/
  put : ByteArray → m Unit

namespace Terminal

variable {m : Type → Type} [Monad m]

/-- Reads one more byte of a line, which ends behind a line feed; `bytes` are those of it that
    have been read, the last one first. -/
@[specialize]
def readOn (terminal : Terminal m) (bytes : List UInt8) : m (List UInt8 ⊕ List UInt8) := do
  match ← terminal.read with
  | none => return .inr bytes.reverse
  | some byte =>
    if byte = Event.lineFeed then return .inr (byte :: bytes).reverse
    else return .inl (byte :: bytes)

/-- The bytes of the next line, with its line feed; there are none at the end. -/
@[specialize]
def readLine (terminal : Terminal m) : m (List UInt8) := repeatM terminal.readOn []

/-- The next event. -/
@[specialize]
def nextEvent (terminal : Terminal m) : m Event := do
  let bytes ← terminal.readLine
  return if bytes.isEmpty then .fault .endOfInput else .ofLine bytes

end Terminal

end Derivatives
