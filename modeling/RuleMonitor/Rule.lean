import RuleMonitor.Evaluation.Edit
import RuleMonitor.Evaluation.Explanation
import RuleMonitor.Evaluation.Incremental
import RuleMonitor.Instantiation.Consistency
import RuleMonitor.Strategy

/-!
# Rules and their cycles

A rule that is monitored has its sentence, the facts of its patterns, an instantiation of its formula
over these facts, and the status that the last successful cycle left. A cycle applies a batch of
changes to the facts and brings the instantiation and the status up to date.

A predicate that fails aborts the cycle: the status stays, the rule becomes dirty, and the next cycle
rebuilds the instantiation. Other errors are handed on.

* `Rule.cycle`: a cycle by a strategy.
* `Rule.rebuild`, `Rule.stepChange`, `Rule.cycleBatch`: the ways of bringing the instantiation up to
  date.
* `Rule.swapBranches`: one context in the place of another, without a cycle.
-/

namespace RuleMonitor

/-- What a rule was found to be. -/
structure Status where
  /-- Unknown before the first successful cycle. -/
  truth : Truth := .unknown
  /-- The minimal links of a rule that is false. -/
  witnesses : List Link := []
deriving DecidableEq

/-- The text of a status. -/
def Status.render (s : Status) : String :=
  s.truth.word ++ String.join (s.witnesses.map fun l => " " ++ l.render)

/-- What is reported after a cycle. -/
structure Report where
  rule : String
  status : Status
  /-- The predicate error that aborted the cycle. -/
  error : Option String
deriving DecidableEq

/-- A rule that is monitored. -/
structure Rule where
  sentence : Sentence
  tree : Tree := {}
  /-- The contexts of the patterns that the rule mentions. -/
  facts : FactStore := {}
  /-- The status after the last successful cycle. -/
  status : Status := {}
  /-- The next cycle rebuilds the instantiation. -/
  dirty : Bool := false
  /-- The predicate error of the last cycle. -/
  lastError : Option String := none

/-- What a cycle needs besides the rule. -/
structure Engine where
  registry : Registry
  /-- Links are only generated where they explain a violation. -/
  minimalLinks : Bool

/-- The parts of the work whose time is taken. -/
inductive Phase where
  | links
  | modify
  | probe
  | total
  | truth
deriving DecidableEq, Repr

/-- The name of a phase. -/
def Phase.name : Phase → String
  | links => "links"
  | modify => "modify"
  | probe => "probe"
  | total => "total"
  | truth => "truth"

/-- A rule in a cycle, with the work done so far. -/
structure Cycle where
  rule : Rule
  /-- The number of fan-outs dispatched. -/
  fanOuts : Nat := 0
  /-- The phases entered. -/
  phases : List Phase := []

namespace Cycle

/-- Changes the rule. -/
def modifyRule (f : Rule → Rule) : Routine Cycle Unit :=
  modify fun c => { c with rule := f c.rule }

/-- Enters a phase. -/
def enter (phase : Phase) : Routine Cycle Unit :=
  modify fun c => { c with phases := c.phases ++ [phase] }

/-- Evaluates something, counting its fan-outs. -/
def evaluate {α : Type} (x : Eval α) : Routine Cycle α :=
  Routine.onPart (·.fanOuts) (fun n c => { c with fanOuts := n }) x

/-- Works on the facts of the rule. -/
def onFacts {α : Type} (x : Routine FactStore α) : Routine Cycle α :=
  Routine.onPart (·.rule.facts) (fun facts c => { c with rule := { c.rule with facts } }) x

/-- Works on the instantiation of the rule. -/
def onTree {α : Type} (x : Routine Tree α) : Routine Cycle α :=
  Routine.onPart (·.rule.tree) (fun tree c => { c with rule := { c.rule with tree } }) x

end Cycle

namespace Rule

/-- The identifier. -/
def id (r : Rule) : String :=
  r.sentence.rule

/-- The report on the last cycle. -/
def report (r : Rule) : Report :=
  ⟨r.id, r.status, r.lastError⟩

/-- The setting of a cycle of the rule. -/
def setting (r : Rule) (engine : Engine) (focus : Focus) (concurrent : List Nat) : Setting where
  sentence := r.sentence
  facts := r.facts
  registry := engine.registry
  focus
  concurrent
  minimalLinks := engine.minimalLinks

/-- The release conditions of the quantifiers whose truth is known, by pattern and slot. -/
def releaseConditions (r : Rule) : List (Nat × ReleaseConditions) :=
  r.sentence.patterns.flatMap fun pattern =>
    (r.tree.nodesOver r.sentence pattern).filterMap fun index => do
      let n ← r.tree.find? index
      let conditions ← r.sentence.releaseConditions n.cell.formula n.cell.truth
      return (index, conditions)

/-! ## Parts of a cycle -/

/-- Generates the links of the instantiation. -/
def generateLinks (engine : Engine) (focus : Focus) (concurrent : List Nat) :
    Routine Cycle Unit := do
  Cycle.enter .links
  let r := (← get).rule
  let tree ← Cycle.evaluate ((r.setting engine focus concurrent).explainTree r.tree)
  Cycle.modifyRule fun r => { r with tree }

/-- Finds the truth of the root, and keeps the node that `evaluate` answers. -/
def findTruth (evaluate : Node → Eval (Bool × Node)) : Routine Cycle Unit := do
  let root ← Routine.ofExcept (← get).rule.tree.getRoot
  Cycle.enter .truth
  let (_, root) ← Cycle.evaluate (evaluate root)
  Cycle.modifyRule fun r => { r with tree := { r.tree with root := some root } }

/-- Brings the structure of the instantiation up to date with the deltas. -/
def restructure (engine : Engine) (focus : Focus) (concurrent : List Nat) :
    Routine Cycle Unit := do
  Cycle.enter .modify
  let r := (← get).rule
  let edits ← Cycle.evaluate ((r.setting engine focus concurrent).plan r.tree)
  Cycle.onTree (Tree.editAll r.sentence edits)

/-- Builds and evaluates the instantiation from nothing. -/
def rebuild (engine : Engine) (concurrent : Bool) : Routine Cycle Unit := do
  Cycle.modifyRule fun r => { r with tree := {} }
  let r := (← get).rule
  let topmost := if concurrent then concurrentTopmost r.sentence else []
  let setting := r.setting engine .everything topmost
  Cycle.enter .modify
  let fragment ← Cycle.evaluate (setting.instantiate r.sentence.formula ∅ none)
  let _ ← Cycle.onTree (Tree.graft r.sentence none fragment)
  findTruth (setting.evaluate .commit none r.sentence.formula)
  generateLinks engine .everything topmost

/-- Applies a batch and rebuilds the instantiation. -/
def cycleFull (engine : Engine) (batch : List Change) (concurrent : Bool) :
    Routine Cycle Unit := do
  Cycle.onFacts (FactStore.applyBatch batch)
  Cycle.onFacts (modify FactStore.clearDeltas)
  rebuild engine concurrent

/-- Processes one addition or deletion. -/
def stepChange (engine : Engine) (change : Change) : Routine Cycle Unit := do
  Cycle.onFacts (modify FactStore.clearDeltas)
  Cycle.onFacts (FactStore.applyBatch [change])
  Cycle.onTree (modify Tree.beginCycle)
  let focus := Focus.patterns [change.pattern]
  restructure engine focus []
  let r := (← get).rule
  findTruth ((r.setting engine focus []).reevaluateChange change r.sentence.formula)
  generateLinks engine focus []

/-- The additions and deletions that a change is processed as. -/
def stepsOf (change : Change) : Routine Cycle (List Change) := do
  match change.kind with
  | .update =>
    match (← get).rule.facts.get? change.pattern change.id with
    | some old =>
      return [⟨.deletion, change.pattern, old⟩, ⟨.addition, change.pattern, change.context⟩]
    | none =>
      throw (.inconsistent
        s!"updating context `{change.context.name}` absent from `{change.pattern}`")
  | _ => return [change]

/-- Processes a step, or only applies it to the facts if an earlier one failed. Answers the failure
that ends the cycle once the batch is applied. -/
def takeStep (engine : Engine) (failed : Option Error) (step : Change) :
    Routine Cycle (Option Error) := do
  match failed with
  | some e =>
    Cycle.onFacts (FactStore.apply step)
    return some e
  | none =>
    match ← Routine.attempt (stepChange engine step) with
    | .ok _ => return none
    | .error (.error e) => if e.isFatal then throw (.error e) else return some e
    | .error (.crash c) => throw (.crash c)

/-- Processes steps in order. -/
def takeSteps (engine : Engine) (failed : Option Error) : List Change → Routine Cycle (Option Error)
  | [] => return failed
  | step :: rest => do
    let failed ← takeStep engine failed step
    takeSteps engine failed rest

/-- Processes changes one at a time. -/
def takeChanges (engine : Engine) (failed : Option Error) :
    List Change → Routine Cycle (Option Error)
  | [] => return failed
  | change :: rest => do
    let steps ← stepsOf change
    let failed ← takeSteps engine failed steps
    takeChanges engine failed rest

/-- Processes a batch one change at a time. Updates are split into a deletion and an addition. After
an error that is not fatal the rest of the batch only reaches the facts. -/
def cycleChanges (engine : Engine) (batch : List Change) : Routine Cycle Unit := do
  match ← takeChanges engine none batch with
  | some e => throw (.error e)
  | none => pure ()

/-- Processes a batch at once. If concurrent, truths are staged, and committed once the links are
generated. -/
def cycleBatch (engine : Engine) (batch : List Change) (concurrent : Bool) :
    Routine Cycle Unit := do
  Cycle.onFacts (FactStore.applyBatch batch)
  Cycle.onTree (modify Tree.beginCycle)
  let focus := Focus.patterns (batch.map (·.pattern))
  let r := (← get).rule
  let profitable := if concurrent then concurrentProfitable r.sentence r.facts focus else []
  restructure engine focus profitable
  let stage := if concurrent then Stage.hold else Stage.commit
  findTruth ((r.setting engine focus profitable).reevaluateBatch stage r.sentence.formula)
  generateLinks engine focus profitable
  if concurrent then
    Cycle.onTree (modify Tree.commit)

/-- The status that the root of the instantiation tells. -/
def statusOf (root : Cell) : Status where
  truth := root.truth
  witnesses :=
    match root.truth, root.links with
    | .no, some links => links.minimal
    | _, _ => []

/-- Brings the status up to date. -/
def updateStatus : Routine Cycle Unit := do
  let root ← Routine.ofExcept (← get).rule.tree.getRoot
  Cycle.modifyRule fun r => { r with status := statusOf root.cell }

/-! ## Cycles -/

/-- Applies a batch by a strategy. A rule that is dirty, or not evaluated yet, is rebuilt. -/
def process (engine : Engine) (strategy : Strategy) (batch : List Change) :
    Routine Cycle Unit := do
  let r := (← get).rule
  if r.dirty || r.tree.root.isNone then cycleFull engine batch false
  else
    match strategy with
    | .full => cycleFull engine batch false
    | .fullConcurrent => cycleFull engine batch true
    | .change => cycleChanges engine batch
    | .batch => cycleBatch engine batch false
    | .batchConcurrent => cycleBatch engine batch true

/-- Runs a cycle on a batch. -/
def cycle (engine : Engine) (strategy : Strategy) (batch : List Change) :
    Routine Cycle Unit := do
  let outcome ← Routine.attempt (process engine strategy batch)
  Cycle.onFacts (modify FactStore.clearDeltas)
  match outcome with
  | .ok _ =>
    Cycle.modifyRule fun r => { r with dirty := false, lastError := none }
    updateStatus
    let r := (← get).rule
    Routine.ofExcept (r.tree.check r.sentence)
  | .error (.error e) =>
    if e.isPredicate then
      Cycle.modifyRule fun r => { r with dirty := true, lastError := some e.message }
    else throw (.error e)
  | .error (.crash c) => throw (.crash c)

/-- Binds some branches to `add` in the place of `del`, and swaps the contexts in the facts. This is
right if the branches have the same truths with either context. -/
def swapBranches (pattern var : String) (del add : Context) (branches : List Nat) :
    Routine Cycle Unit := do
  branches.forM fun branch => Cycle.onTree (Tree.rebind branch var add)
  if del.id ≠ add.id then
    Cycle.onTree (modify fun t => t.renameLinks var del.id add.id)
  Cycle.onFacts (FactStore.swap pattern del.id add)
  updateStatus

end Rule

end RuleMonitor
