import RuleMonitor.Profile
import RuleMonitor.Rule

/-!
# The checker

The checker owns the rules. It registers them, hands batches of changes to them, and keeps count of
what was done. What it has to say about its work is kept as notes, to be shown by whoever runs it.

* `Checker.addRule`: a rule registered and evaluated over its first facts.
* `Checker.checkBatch`: a cycle of a rule. Predicate errors are part of the report.
* `Checker.withSetting`: evaluation outside a cycle.
-/

namespace RuleMonitor

open Std (ExtTreeMap)

/-- How the checker works. -/
structure CheckerOptions where
  strategy : Strategy := .change
  /-- Links are only generated where they explain a violation. -/
  minimalLinks : Bool := true
  /-- The number of workers. -/
  threads : Nat := 8
deriving DecidableEq

/-- How important a note is, the most important first. -/
inductive NoteLevel where
  | warning
  | info
  | debug
deriving DecidableEq, Repr

/-- Something to be said about the work. -/
structure Note where
  level : NoteLevel
  text : String
deriving DecidableEq, Repr

/-- The rules, and what was done with them. -/
structure Checker where
  options : CheckerOptions
  registry : Registry
  /-- The rules by their identifiers. -/
  rules : ExtTreeMap String Rule := ∅
  /-- The fan-outs since they were counted last. -/
  fanOuts : Nat := 0
  counters : Counters := ∅
  /-- How often each phase was entered. -/
  phases : Counters := ∅
  notes : Array Note := #[]

namespace Checker

/-- What cycles need besides the rules. -/
def engine (c : Checker) : Engine where
  registry := c.registry
  minimalLinks := c.options.minimalLinks

/-- The rules in the order of their identifiers. -/
def ruleList (c : Checker) : List Rule :=
  c.rules.values

/-- A rule that may not be registered. -/
def unknownRule (id : String) : Failure :=
  .of (.unknownRule id)

/-- A registered rule. -/
def rule (c : Checker) (id : String) : Except Failure Rule :=
  match c.rules[id]? with
  | some r => .ok r
  | none => .error (unknownRule id)

/-- The rules that quantify over a pattern. -/
def rulesOver (c : Checker) (pattern : String) : List String :=
  (c.ruleList.filter fun r => r.sentence.mentions pattern).map Rule.id

/-- The profile of the work, on a clock that advances by a nanosecond with each phase entered. -/
def profile (c : Checker) : ProfileTree :=
  let total := c.phases.values.foldl (· + ·) 0
  c.phases.toList.foldl (fun t e => t.insert [e.1] ⟨e.2⟩) (.top (some ⟨total⟩))

/-- Says something. -/
def note (level : NoteLevel) (text : String) : Routine Checker Unit :=
  modify fun c => { c with notes := c.notes.push ⟨level, text⟩ }

/-- Increases a counter. -/
def count (name : String) (n : Nat) : Routine Checker Unit :=
  modify fun c => { c with counters := c.counters.count name n }

/-- Enters a phase. -/
def enter (phase : Phase) : Routine Checker Unit :=
  modify fun c => { c with phases := c.phases.count phase.name 1 }

/-- Takes over the work of a cycle. -/
def absorb (cycle : Cycle) (c : Checker) : Checker :=
  { c with
    fanOuts := c.fanOuts + cycle.fanOuts
    phases := cycle.phases.foldl (fun phases p => phases.count p.name 1) c.phases }

/-- Works on a registered rule. -/
def onRule {α : Type} (id : String) (x : Routine Cycle α) : Routine Checker α := fun c =>
  match c.rules[id]? with
  | none => .error (unknownRule id) c
  | some r =>
    let keep (cycle : Cycle) : Checker :=
      { absorb cycle c with rules := c.rules.insert id cycle.rule }
    match x { rule := r } with
    | .ok a cycle => .ok a (keep cycle)
    | .error e cycle => .error e (keep cycle)

/-- Runs a cycle of a rule that is not registered yet. -/
def onNewRule (r : Rule) (x : Routine Cycle Unit) : Routine Checker Rule := fun c =>
  match x { rule := r } with
  | .ok _ cycle => .ok cycle.rule (absorb cycle c)
  | .error e cycle => .error e (absorb cycle c)

/-- Says that a cycle was aborted, if it was. -/
def noteAborted (r : Rule) : Routine Checker Unit :=
  match r.lastError with
  | some e => note .warning s!"rule `{r.id}`: {e}, rebuilding at next cycle"
  | none => pure ()

/-- Registers a rule, and evaluates it over the facts about its patterns. -/
def addRule (s : Sentence) (facts : List Change) : Routine Checker Report := do
  let c ← get
  if c.rules.contains s.rule then
    throw (.of (.rule s.rule "rule is defined twice"))
  let mentioned := facts.filter fun change => s.mentions change.pattern
  let r ← onNewRule { sentence := s } (Rule.cycle c.engine .full mentioned)
  noteAborted r
  note .info s!"registered rule `{r.id}`: {r.status.render}"
  modify fun c => { c with rules := c.rules.insert r.id r }
  return r.report

/-- Says that a dirty rule is rebuilt. -/
def noteRebuilt (r : Rule) : Routine Checker Unit := do
  if r.dirty then
    count "fallbacks" 1
    note .debug s!"rule `{r.id}` is dirty, rebuilding"

/-- Counts the fan-outs of the cycles since they were counted last. -/
def countFanOuts : Routine Checker Unit := do
  count "concurrent dispatches" (← get).fanOuts
  modify fun c => { c with fanOuts := 0 }

/-- Runs a cycle of a rule on a batch of changes. -/
def checkBatch (id : String) (batch : List Change) : Routine Checker Report := do
  let c ← get
  let before ← Routine.ofExcept (c.rule id)
  enter .total
  noteRebuilt before
  onRule id (Rule.cycle c.engine c.options.strategy batch)
  let r ← Routine.ofExcept ((← get).rule id)
  noteAborted r
  count "cycles" 1
  count "changes" batch.length
  countFanOuts
  note .debug s!"rule `{id}` after {batch.length} change(s): {r.status.render}"
  return r.report

/-- Evaluates something about a rule outside a cycle, where no formula is affected. -/
def withSetting {α : Type} (c : Checker) (id : String)
    (f : Rule → Setting → Except Failure α) : Except Failure α := do
  let r ← c.rule id
  f r (r.setting c.engine .nothing [])

end Checker

end RuleMonitor
