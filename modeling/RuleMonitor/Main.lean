import RuleMonitor.Program

/-!
# The command line

Reads the arguments and the script, and prints what the run leaves.
-/

open RuleMonitor

/-- All bytes of a stream. -/
partial def readAll (stream : IO.FS.Stream) (read : ByteArray) : IO ByteArray := do
  let bytes ← stream.read 65536
  if bytes.isEmpty then return read else readAll stream (read ++ bytes)

/-- The reason why a file cannot be opened. -/
def openReason : IO.Error → String
  | .noFileOrDirectory _ code details
  | .permissionDenied _ code details
  | .inappropriateType _ code details
  | .invalidArgument _ code details
  | .resourceExhausted _ code details => s!"{details} (os error {code})"
  | e => toString e

/-- The lines of a script, or the reason why it cannot be opened. -/
def readScript (file : Option String) : IO Program.Source := do
  match file with
  | none =>
    let bytes ← readAll (← IO.getStdin) .empty
    return .ok (SourceLine.ofBytes bytes.toList)
  | some name =>
    try
      let handle ← IO.FS.Handle.mk name .read
      let bytes ← readAll (.ofHandle handle) .empty
      return .ok (SourceLine.ofBytes bytes.toList)
    catch e =>
      match e with
      | .inappropriateType _ 21 _ => return .ok [.unreadable (openReason e)]
      | _ => return .error (openReason e)

/-- Prints what a run leaves, and answers its exit code. -/
def finish (outcome : Program.Outcome) : IO UInt32 := do
  let out ← IO.getStdout
  out.putStr outcome.output
  out.flush
  return .ofNat outcome.code

def main (arguments : List String) : IO UInt32 := do
  match Options.ofArguments arguments with
  | .error fault => finish (Program.refuse fault)
  | .ok options =>
    let source ← readScript options.file
    let terminal ← (← IO.getStdout).isTty
    finish (Program.run options source terminal)
