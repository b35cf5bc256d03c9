import RuleMonitor.Options

/-!
# The program

The program works through a script that is named on the command line, or read from the standard
input. It ends with a code: zero if the run came to its end, two if an error stopped it, and a code of
its own if it crashed.

* `Program.run`: the output and the exit code for a command line and a script.
-/

namespace RuleMonitor.Program

/-- What a run leaves. -/
structure Outcome where
  code : Nat
  output : String
deriving DecidableEq, Repr

/-- The name and the version. -/
def version : String :=
  "ccmon 0.3.0"

/-- How to call the program. -/
def usage : String :=
  version ++ "\n\nUSAGE:\n    ccmon [OPTIONS] [input file]\n"

/-- The outcome of a command line that asks for no run. -/
def refuse : ArgumentFault → Outcome
  | .help => ⟨0, usage⟩
  | .version => ⟨0, version ++ "\n"⟩
  | _ => ⟨2, ""⟩

/-- The outcome of a run that failed after it printed something. -/
def fail (printed : String) : Failure → Outcome
  | .error e => ⟨2, printed ++ e.report⟩
  | .crash _ => ⟨101, printed⟩

/-- How the options make a session work. -/
def sessionOptions (o : Options) (terminal : Bool) : SessionOptions where
  checker := o.checker
  mode := o.mode
  generate := o.generate
  seed := o.seed
  links := o.links
  notes := some o.notes
  stats := o.stats
  styles := .of (terminal && o.color)

/-- A script: its lines, or the reason why it cannot be opened. -/
abbrev Source := Except String (List SourceLine)

/-- The error of a script that cannot be opened. -/
def notOpened (file reason : String) : Error :=
  (Error.of (.input reason)).within (.plain s!"while opening input file `{file}`")

/-- The outcome of a session over a script. -/
def work (options : SessionOptions) (source : List SourceLine) : Outcome :=
  match Session.run source (.start options) with
  | .ok _ s => ⟨0, s.printed⟩
  | .error e s => fail s.printed e

/-- The outcome of a run. `source` is the script that the options name, and `terminal` says that the
output is shown on a terminal. -/
def run (o : Options) (source : Source) (terminal : Bool) : Outcome :=
  match source with
  | .error reason => fail "" (.error (notOpened (o.file.getD "") reason))
  | .ok lines => work (sessionOptions o terminal) lines

end RuleMonitor.Program
