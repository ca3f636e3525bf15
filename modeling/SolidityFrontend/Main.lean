import SolidityFrontend.Command

/-!
# The program

Reads the file of a call, prints what the call gives, and ends with its exit code. Reports of
errors go to the error stream, one line each.
-/

open SolidityFrontend

/-- The bytes of a file, if it can be read. -/
def readBytes? (file : String) : IO (Option (List UInt8)) := do
  try
    return some (← IO.FS.readBinFile file).toList
  catch _ => return none

/-- A report in one line. -/
def diagnosticLine (d : Diagnostic) : String :=
  "error: " ++ d.message ++ String.join (d.labels.map fun l =>
    " [" ++ Text.decimal l.start ++ ".." ++ Text.decimal l.stop ++ ": " ++ l.message ++ "]")

def main (words : List String) : IO UInt32 := do
  let outcome ← respond readBytes? words
  for d in outcome.diagnostics do
    IO.eprintln (diagnosticLine d)
  IO.print outcome.output
  if let some message := outcome.failure then IO.eprintln message
  return UInt32.ofNat outcome.exitCode
