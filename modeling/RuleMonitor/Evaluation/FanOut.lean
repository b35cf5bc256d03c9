import RuleMonitor.Failure

/-!
# Fan-outs

Independent tasks may be handed out to workers. Every task is run, the results come back in the order
of the tasks, and the first error in that order is the one that counts, except that a task that
crashed counts before errors that are not fatal. At most one task is run on the spot, where a crash
stays a crash.

* `joinResults`: the results of all tasks, or the error that counts.
* `Eval α`: evaluation, which counts the fan-outs it dispatches.
* `Eval.fanOut`: tasks handed out; `Eval.forEach`: tasks handed out or run in sequence.
-/

namespace RuleMonitor

/-- The error that a crashed task leaves. -/
def Crash.toError : Crash → Error
  | .text message => .of (.task message)
  | .silent => .of (.task "unknown panic")

/-- The error that counts after one more failure. -/
def worseError (error : Option Error) : Failure → Error
  | .error e => error.getD e
  | .crash c =>
    match error with
    | some e => if e.isFatal then e else c.toError
    | none => c.toError

/-- The error that counts among the results of all tasks. -/
def firstError {α : Type} : List (Except Failure α) → Option Error → Option Error
  | [], error => error
  | .ok _ :: results, error => firstError results error
  | .error f :: results, error => firstError results (some (worseError error f))

/-- The results that are values. -/
def values {α : Type} : List (Except Failure α) → List α
  | [] => []
  | .ok a :: results => a :: values results
  | .error _ :: results => values results

/-- The values of all tasks, or the error that counts. -/
def joinResults {α : Type} (results : List (Except Failure α)) : Except Failure (List α) :=
  match firstError results none with
  | some e => .error (.error e)
  | none => .ok (values results)

/-- Evaluation with the number of fan-outs dispatched. -/
abbrev Eval (α : Type) : Type := Routine Nat α

namespace Eval

variable {α β : Type}

/-- Runs tasks one after the other, until one fails. -/
def inSequence (f : α → Eval β) : List α → Eval (List β)
  | [] => pure []
  | a :: as => do
    let b ← f a
    let bs ← inSequence f as
    return b :: bs

/-- Runs all tasks, and answers what each one led to. -/
def runAll (f : α → Eval β) : List α → Eval (List (Except Failure β))
  | [] => pure []
  | a :: as => do
    let b ← Routine.attempt (f a)
    let bs ← runAll f as
    return b :: bs

/-- Hands tasks out to workers. -/
def fanOut (f : α → Eval β) (items : List α) : Eval (List β) :=
  if items.length ≤ 1 then inSequence f items
  else do
    let results ← runAll f items
    Routine.ofExcept (joinResults results)

/-- Hands tasks out, which is counted as a dispatch, or runs them one after the other. -/
def forEach (concurrent : Bool) (f : α → Eval β) (items : List α) : Eval (List β) :=
  if concurrent then do
    modify (· + 1)
    fanOut f items
  else inSequence f items

end Eval

end RuleMonitor
