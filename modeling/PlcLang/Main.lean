import PlcLang.CommandLine.Plan

/-!
# The program

* `main`: reads the file that the arguments name, writes the two streams and exits.
-/

namespace PlcLang

/-- More than any program needs. -/
def stepLimit : Nat := Nat.pow 2 62

/-- The contents of a file. -/
def contentsOf (path : String) : IO (Except Unread String) := do
  try
    return .ok (CommandLine.readText (← IO.FS.readFile path))
  catch e =>
    match e with
    | .permissionDenied .. => return .error .denied
    | _ => return .error .missing

end PlcLang

open PlcLang in
/-- Answers a command line. -/
def main (arguments : List String) : IO UInt32 := do
  let out ← IO.getStdout
  let err ← IO.getStderr
  let terminal := (← out.isTty) && (← err.isTty)
  let report ← match CommandLine.start arguments terminal with
    | .report r => pure r
    | .load path flags paint => do
      let contents ← contentsOf path
      pure (CommandLine.answer path flags paint stepLimit contents)
  out.putStr report.out
  err.putStr report.err
  let (status, line) := report.exitStatus
  match line with
  | some line => err.putStrLn line
  | none => pure ()
  return status.toUInt32
