import RuleMonitor.Text.Lines

/-!
# Failures

An operation that does not succeed either reports an error or crashes. An error has a kind, with the
data that its message shows, and the kinds of the errors that caused it, outermost first. A crash is
what a predicate that breaks down, an index out of range or an overflow leaves behind; a fan-out
turns it into an error, everywhere else it ends the run.

* `ErrorKind.message`, `ErrorKind.description`: the texts of each kind.
* `Error.isFatal`: violations of consistency and failed tasks, after which the run must stop.
* `Routine σ α`: a computation on a state `σ`, whose writes before a failure stay.
-/

namespace RuleMonitor

/-- A place in a text that could not be read, cut out of its line. -/
structure ParseError where
  /-- What was wrong. -/
  message : String
  /-- The line before the token. -/
  before : String
  /-- The token at fault. -/
  token : String
  /-- The line after the token. -/
  after : String
  /-- The number of the line, if known. -/
  line : Option Nat
deriving DecidableEq, Repr

/-- The kinds of errors. -/
inductive ErrorKind where
  /-- A message that is not classified further. -/
  | plain (text : String)
  /-- A failure to read the input. -/
  | input (text : String)
  /-- A predicate that could not be evaluated, local to a rule. -/
  | predicate (name text : String)
  /-- A change or a tree that contradicts the contexts. -/
  | inconsistent (text : String)
  /-- A task of a fan-out that crashed. -/
  | task (text : String)
  /-- A rule that is not well formed. -/
  | rule (id text : String)
  /-- A text that could not be parsed. -/
  | parse (error : ParseError)
  /-- A rule that is not registered. -/
  | unknownRule (id : String)
deriving DecidableEq, Repr

/-- An error and its causes, outermost first. -/
structure Error where
  kind : ErrorKind
  causes : List ErrorKind
deriving DecidableEq, Repr

/-- What a crash leaves behind. -/
inductive Crash where
  /-- A text. -/
  | text (message : String)
  /-- Something that is no text. -/
  | silent
deriving DecidableEq, Repr

/-- The ways not to succeed. -/
inductive Failure where
  | error (error : Error)
  | crash (crash : Crash)
deriving DecidableEq, Repr

/-- A computation on a state; a failure keeps the state reached. -/
abbrev Routine (σ α : Type) : Type := EStateM Failure σ α

/-! ## Messages -/

/-- `n` spaces. -/
def spaces (n : Nat) : String :=
  "".pushn ' ' n

/-- The column of the token in bytes, from one. -/
def ParseError.column (e : ParseError) : Nat :=
  e.before.utf8ByteSize + 1

/-- The margin in front of the quoted line. -/
def ParseError.margin (e : ParseError) : String :=
  match e.line with
  | some line => s!"{line} "
  | none => ""

/-- Where the error is. -/
def ParseError.place (e : ParseError) : String :=
  match e.line with
  | some line => s!" at [{line}:{e.column}]:"
  | none => ":"

/-- The message, the line, and a row of carets under the token. -/
def ParseError.render (e : ParseError) : String :=
  let blank := spaces e.margin.length
  e.message ++ e.place ++ "\n" ++
    blank ++ "|\n" ++
    e.margin ++ "| " ++ e.before ++ e.token ++ e.after ++ "\n" ++
    blank ++ "| " ++ spaces e.before.utf8ByteSize ++ "".pushn '^' (max 1 e.token.utf8ByteSize)

/-- The text shown for an error. -/
def ErrorKind.message : ErrorKind → String
  | plain text => text
  | input text => text
  | predicate name text => s!"predicate `{name}`: {text}"
  | inconsistent text => s!"consistency violation: {text}"
  | task text => s!"worker task failed: {text}"
  | rule id text => s!"in rule `{id}`: {text}"
  | parse e => e.render
  | unknownRule id => s!"unknown rule `{id}`"

/-- The class of an error in a few words. -/
def ErrorKind.description : ErrorKind → String
  | plain text => text
  | input _ => ""
  | predicate .. => "predicate evaluation error"
  | inconsistent _ => "structural consistency violation"
  | task _ => "worker task failure"
  | rule .. => "malformed rule"
  | parse _ => "parse error"
  | unknownRule _ => "unknown rule"

namespace Error

/-- An error without a cause. -/
def of (kind : ErrorKind) : Error :=
  ⟨kind, []⟩

/-- An error caused by `e`. -/
def within (kind : ErrorKind) (e : Error) : Error :=
  ⟨kind, e.kind :: e.causes⟩

/-- The text shown for the error itself. -/
def message (e : Error) : String :=
  e.kind.message

/-- The error leaves trees that cannot be trusted. -/
def isFatal (e : Error) : Bool :=
  match e.kind with
  | .inconsistent _ | .task _ => true
  | _ => false

/-- The error is local to a rule. -/
def isPredicate (e : Error) : Bool :=
  match e.kind with
  | .predicate .. => true
  | _ => false

/-- The error is in the text of an item. -/
def isParse (e : Error) : Bool :=
  match e.kind with
  | .parse _ => true
  | _ => false

/-- The error and its causes as a comment block of the output, each line indented. -/
def report (e : Error) : String :=
  let lines := (e.kind :: e.causes).flatMap fun kind => Text.displayLines kind.message
  "(error \"\n" ++ String.join (lines.map fun line => "  " ++ line ++ "\n") ++ "\")\n"

end Error

/-! ## Failing -/

/-- The failure by an error without a cause. -/
def Failure.of (kind : ErrorKind) : Failure :=
  .error (.of kind)

/-- The failure by a violation of consistency. -/
def Failure.inconsistent (text : String) : Failure :=
  .of (.inconsistent text)

/-- The failure wrapped into a further error; a crash stays what it is. -/
def Failure.within (kind : ErrorKind) : Failure → Failure
  | .error e => .error (e.within kind)
  | .crash c => .crash c

namespace Routine

variable {σ τ α : Type}

/-- Runs `x`, and wraps the error it fails with. -/
def within (kind : σ → ErrorKind) (x : Routine σ α) : Routine σ α := fun s =>
  match x s with
  | .ok a s' => .ok a s'
  | .error e s' => .error (e.within (kind s')) s'

/-- Runs `x` on a part of the state, which is written back in either case. -/
def onPart (get : σ → τ) (set : τ → σ → σ) (x : Routine τ α) : Routine σ α := fun s =>
  match x (get s) with
  | .ok a t => .ok a (set t s)
  | .error e t => .error e (set t s)

/-- Runs `x`, and answers its failure instead of failing. -/
def attempt (x : Routine σ α) : Routine σ (Except Failure α) := fun s =>
  match x s with
  | .ok a s' => .ok (.ok a) s'
  | .error e s' => .ok (.error e) s'

/-- The value that `x` finds from a state. -/
def value (x : Routine σ α) (s : σ) : Except Failure α :=
  match x s with
  | .ok a _ => .ok a
  | .error e _ => .error e

/-- The state that `x` leads to. -/
def state (x : Routine σ α) (s : σ) : Except Failure σ :=
  match x s with
  | .ok _ s' => .ok s'
  | .error e _ => .error e

/-- Fails if there is no value. -/
def orFail (failure : Failure) : Option α → Routine σ α
  | some a => pure a
  | none => throw failure

/-- A computation that leaves the state alone. -/
def ofExcept : Except Failure α → Routine σ α
  | .ok a => pure a
  | .error e => throw e

end Routine

end RuleMonitor
