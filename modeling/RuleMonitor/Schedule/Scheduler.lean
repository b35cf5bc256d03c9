import RuleMonitor.Schedule.Probe

/-!
# Scheduling

The scheduler decides when a rule is checked for a change. Immediately, each change makes a batch of
its own. Otherwise changes wait in a pending batch for each rule, until a change could hide what a
waiting one shows: then the batch is submitted and the change starts the next one. A change that
cancels a waiting one is merged with it, and no cycle is needed for either.

* `Scheduler.schedule`, `Scheduler.flush`: a change taken in, and all pending batches submitted.
* `Scheduler.mustSplit`: a change starts a new batch.
* `Scheduler.findMerge`: the waiting change that a change cancels.
-/

namespace RuleMonitor

open Std (ExtTreeMap ExtTreeSet)

/-- When changes are checked. -/
inductive SchedulingMode where
  /-- Each change on its own. -/
  | immediate
  /-- In batches. -/
  | batched
deriving DecidableEq, Repr

namespace SchedulingMode

/-- The name of a mode. -/
def name : SchedulingMode → String
  | immediate => "imd"
  | batched => "batch"

/-- The mode with a name. -/
def ofName? (name : String) : Option SchedulingMode :=
  [immediate, batched].find? fun m => m.name = name

end SchedulingMode

/-- How a waiting change is cancelled. -/
inductive Merge where
  /-- An addition and a deletion of the same context. -/
  | annihilate (position : Nat)
  /-- A deletion and an addition that a rule cannot tell from nothing. -/
  | swap (position : Nat) (r : Replacement)

/-- The position of the waiting change. -/
def Merge.position : Merge → Nat
  | annihilate position | swap position _ => position

/-- The rules, and the changes that wait for them. -/
structure Scheduler where
  mode : SchedulingMode
  checker : Checker
  /-- The pending batches by rule. -/
  pending : ExtTreeMap String (List Change) := ∅
  /-- The changes that start a new batch. -/
  next : ExtTreeMap String (List Change) := ∅
  /-- The contexts that are never merged. -/
  critical : ExtTreeSet Nat := ∅

namespace Scheduler

/-- The pending batch of a rule. -/
def pendingOf (s : Scheduler) (rule : String) : List Change :=
  s.pending.getD rule []

/-- The pending batches of the registered rules that are not empty. -/
def waiting (s : Scheduler) : List (String × List Change) :=
  (s.checker.ruleList.map fun r => (r.id, s.pendingOf r.id)).filter fun b => !b.2.isEmpty

/-- Works on the checker. -/
def onChecker {α : Type} (x : Routine Checker α) : Routine Scheduler α :=
  Routine.onPart Scheduler.checker (fun checker s => { s with checker }) x

/-- Prevents a context from being merged. -/
def addCritical (s : Scheduler) (id : Nat) : Scheduler :=
  { s with critical := s.critical.insert id }

/-! ## Conditions -/

/-- The change could hide what a pending change of another context shows: it can make the rule true,
and one of the pending changes can falsify it. -/
def mustSplit (s : Sentence) (pending : List Change) (change : Change) : Bool :=
  (s.effect change).isMinus && pending.any (fun other => (s.effect other).isPlus) &&
    pending.all fun other => other.id ≠ change.id

/-- Pending changes other than the one at a position concern one of two contexts. -/
def touchedElsewhere (pending : List Change) (position first second : Nat) : Bool :=
  pending.zipIdx.any fun (c, i) => i ≠ position && (c.id = first || c.id = second)

/-- The waiting change at a position could be cancelled by a change, as far as that can be told without
a probe. -/
def mayCancel (s : Scheduler) (pending : List Change) (change : Change) (position : Nat)
    (other : Change) : Bool :=
  other.pattern = change.pattern && other.kind.isOpposite change.kind &&
    !s.critical.contains other.id && !s.critical.contains change.id &&
    !touchedElsewhere pending position other.id change.id

/-- The replacement that a deletion and an addition amount to. The answer is none if there is none, or
if the probe meets a predicate error, which is noted. -/
def probePair (rule : Rule) (change other : Change) : Routine Checker (Option Replacement) := do
  let (del, add) := if change.kind = .deletion then (change, other) else (other, change)
  match rule.facts.get? del.pattern del.id with
  | none => return none
  | some context =>
    Checker.enter .probe
    match (← get).probe rule.id del.pattern context add.context with
    | .ok found => return found
    | .error (.error e) =>
      if e.isPredicate then
        Checker.note .debug s!"rule `{rule.id}`: probing {change.render} failed: {e.message}"
        return none
      else throw (.error e)
    | .error (.crash c) => throw (.crash c)

/-- Whether and how a change cancels the waiting change at a position. -/
def tryMerge (s : Scheduler) (rule : Rule) (pending : List Change) (change : Change)
    (position : Nat) (other : Change) : Routine Checker (Option Merge) := do
  if !s.mayCancel pending change position other then return none
  if other.id = change.id && other.kind = .addition then
    return some (.annihilate position)
  if other.id ≠ change.id && (rule.sentence.effect change).isMinus then return none
  return (← probePair rule change other).map (.swap position)

/-- The first waiting change, from a position on, that a change cancels. -/
def findMergeFrom (s : Scheduler) (rule : Rule) (pending : List Change) (change : Change) :
    (position : Nat) → List Change → Routine Checker (Option Merge)
  | _, [] => return none
  | position, other :: rest => do
    match ← tryMerge s rule pending change position other with
    | some merge => return some merge
    | none => findMergeFrom s rule pending change (position + 1) rest

/-- The first waiting change that a change cancels. -/
def findMerge (rule : String) (change : Change) : Routine Scheduler (Option Merge) := do
  let s ← get
  let r ← Routine.ofExcept (s.checker.rule rule)
  if r.dirty then return none
  let pending := s.pendingOf rule
  onChecker (findMergeFrom s r pending change 0 pending)

/-! ## Batches -/

/-- Submits a batch. -/
def submit (rule : String) (batch : List Change) : Routine Scheduler Report :=
  onChecker do
    Checker.count "batches" 1
    Checker.checkBatch rule batch

/-- Submits the batches that are not empty. -/
def submitAll : List (String × List Change) → Routine Scheduler (List Report)
  | [] => return []
  | (rule, batch) :: rest => do
    if batch.isEmpty then submitAll rest
    else
      let report ← submit rule batch
      let reports ← submitAll rest
      return report :: reports

/-- Appends a change to the pending batch of a rule. -/
def append (rule : String) (change : Change) : Routine Scheduler Unit :=
  modify fun s => { s with pending := s.pending.insert rule (s.pendingOf rule ++ [change]) }

/-- Makes a change start the next batch of a rule. -/
def startNext (rule : String) (change : Change) : Routine Scheduler Unit :=
  modify fun s => { s with next := s.next.insert rule (s.next.getD rule [] ++ [change]) }

/-- Takes the waiting change at a position out of the pending batch of a rule. -/
def withdraw (rule : String) (position : Nat) (change : Change) : Routine Scheduler Unit := do
  let s ← get
  let pending := s.pendingOf rule
  set { s with pending := s.pending.insert rule (pending.eraseIdx position) }
  match pending[position]? with
  | some other =>
    onChecker (Checker.note .debug s!"rule `{rule}`: merged {other.render} with {change.render}")
  | none => pure ()

/-- Merges a change with a waiting one, if it cancels one. -/
def merge (rule : String) (change : Change) : Routine Scheduler Bool := do
  if change.kind = .update then return false
  match ← findMerge rule change with
  | none => return false
  | some found =>
    match found with
    | .annihilate _ => pure ()
    | .swap _ r => onChecker (Checker.replace r)
    withdraw rule found.position change
    onChecker (Checker.count "merged" 1)
    return true

/-- Puts a change in the pending batch of a rule, makes it start the next one, or merges it. -/
def take (rule : String) (change : Change) : Routine Scheduler Unit := do
  let s ← get
  let pending := s.pendingOf rule
  if pending.isEmpty then append rule change
  else
    let r ← Routine.ofExcept (s.checker.rule rule)
    if mustSplit r.sentence pending change then
      onChecker (Checker.note .debug s!"rule `{rule}`: {change.render} starts a new batch")
      startNext rule change
    else if !(← merge rule change) then append rule change

/-- Makes the next batch of a rule the pending one, and submits the batch that was pending. -/
def submitNext : List (String × List Change) → Routine Scheduler (List Report)
  | [] => return []
  | (rule, next) :: rest => do
    let s ← get
    let batch := s.pendingOf rule
    set { s with pending := s.pending.insert rule next }
    if batch.isEmpty then submitNext rest
    else
      let report ← submit rule batch
      let reports ← submitNext rest
      return report :: reports

/-! ## The stream of changes -/

/-- Takes in a change, and reports on the cycles that it led to. -/
def schedule (change : Change) : Routine Scheduler (List Report) := do
  let rules := (← get).checker.rulesOver change.pattern
  match (← get).mode with
  | .immediate => submitAll (rules.map fun rule => (rule, [change]))
  | .batched =>
    rules.forM fun rule => take rule change
    let next := (← get).next.toList
    modify fun s => { s with next := ∅ }
    submitNext next

/-- Submits all pending batches. -/
def flush : Routine Scheduler (List Report) := do
  let pending := (← get).pending.toList
  modify fun s => { s with pending := ∅ }
  submitAll pending

end Scheduler

end RuleMonitor
