import Derivatives.CommandLine

/-!
# The program

The terminal of the program is its standard input and output. What it does there is decided by
the command line.
-/

namespace Derivatives.Program

/-- The standard input and output. -/
def terminal : Terminal IO where
  read := do
    let bytes ← (← IO.getStdin).read 1
    return bytes.toList.head?
  put bytes := do
    let stdout ← IO.getStdout
    stdout.write bytes
    stdout.flush

end Derivatives.Program

open Derivatives in
/-- Derives the expression of the arguments, or those that the user enters. -/
def main (arguments : List String) : IO UInt32 := do
  let (exitCode, complaint) ← CommandLine.interact Program.terminal arguments
  if let some line := complaint then IO.eprintln line
  return exitCode.toUInt32
