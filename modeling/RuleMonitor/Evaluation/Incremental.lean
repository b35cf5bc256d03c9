import RuleMonitor.Evaluation.Full

/-!
# Incremental evaluation

After the structure of an instantiation was brought up to date, only the nodes that the cycle affects
have to be evaluated again. The branches grafted in the cycle are evaluated in full; the others keep
their truths, or are evaluated incrementally if the body of the quantifier is affected as well.

* `Setting.reevaluateChange`: after exactly one addition or deletion.
* `Setting.reevaluateBatch`: after any changes.
-/

namespace RuleMonitor

namespace Setting

/-- The truth of a quantifier from the truths noted for its branches. -/
def foldBranchTruths (kind : QuantifierKind) (c : Cell) : Except Failure Bool := do
  let truths ← c.branchTruths.values.mapM fun truth =>
    match truth.toBool? with
    | some b => Except.ok b
    | none => Except.error (Failure.inconsistent "unknown truth in a child map")
  return kind.fold truths

/-- The truth of a node after one addition or deletion, and the node with the truths found. A
quantifier over the pattern changed evaluates the new branch after an addition, and folds the truths
of the branches left after a deletion. -/
def reevaluateChange (s : Setting) (change : Change) : Formula → Node → Eval (Bool × Node)
  | f@(.quantified i q body), n@(.mk c kids) => do
    if !s.focus.affects f then
      return (← Routine.ofExcept c.committed, n)
    if q.pattern = change.pattern then
      match change.kind with
      | .addition =>
        let branches ← s.forBranches i (s.evaluate .commit none body) n.freshKids
        let c' ← Routine.ofExcept (recordBranches c branches)
        let base ← Routine.ofExcept c.committed
        return conclude c' .commit (q.kind.fold (base :: branches.map (·.1)))
          (n.oldKids ++ branches.map (·.2))
      | .deletion =>
        let truth ← Routine.ofExcept (foldBranchTruths q.kind c)
        return conclude c .commit truth kids
      | .update => throw (.inconsistent s!"single-change evaluation of update `{change.render}`")
    else
      let branches ← s.forBranches i (reevaluateChange s change body) kids
      let c' ← Routine.ofExcept (recordBranches c branches)
      return conclude c' .commit (q.kind.fold (branches.map (·.1))) (branches.map (·.2))
  | f@(.binary i op left right), n@(.mk c kids) => do
    if !s.focus.affects f then
      return (← Routine.ofExcept c.committed, n)
    match kids with
    | [a, b] =>
      let (ta, a) ← reevaluateChange s change left a
      let (tb, b) ← reevaluateChange s change right b
      return conclude c .commit (op.eval ta tb) [a, b]
    | _ => throw (missingKid i kids.length)
  | f@(.negation i body), n@(.mk c kids) => do
    if !s.focus.affects f then
      return (← Routine.ofExcept c.committed, n)
    match kids with
    | [a] =>
      let (ta, a) ← reevaluateChange s change body a
      return conclude c .commit (!ta) [a]
    | _ => throw (missingKid i kids.length)
  | .application .., n@(.mk c _) => return (← Routine.ofExcept c.committed, n)

/-- The truth of a node after a batch, and the node with the truths found. -/
def reevaluateBatch (s : Setting) (stage : Stage) : Formula → Node → Eval (Bool × Node)
  | f@(.quantified i q body), n@(.mk c _) => do
    if !s.focus.affects f then
      return (← Routine.ofExcept c.committed, n)
    if s.focus.affects body then
      let evaluateKid : Bool × Node → Eval (Bool × Node)
        | (false, kid) => reevaluateBatch s stage body kid
        | (true, kid) => s.evaluate stage none body kid
      let branches ← s.forBranches i evaluateKid
        (n.oldKids.map (false, ·) ++ n.freshKids.map (true, ·))
      let c' ← Routine.ofExcept (recordBranches c branches)
      return conclude c' stage (q.kind.fold (branches.map (·.1))) (branches.map (·.2))
    else
      let branches ← s.forBranches i (s.evaluate stage none body) n.freshKids
      let c' ← Routine.ofExcept (recordBranches c branches)
      let delta := s.facts.delta q.pattern
      let base ← Routine.ofExcept <|
        if delta.deleted.isEmpty && delta.updated.isEmpty && !c.pruned then c.committed
        else foldBranchTruths q.kind c
      return conclude c' stage (q.kind.fold (base :: branches.map (·.1)))
        (n.oldKids ++ branches.map (·.2))
  | f@(.binary i op left right), n@(.mk c kids) => do
    if !s.focus.affects f then
      return (← Routine.ofExcept c.committed, n)
    match kids with
    | [a, b] =>
      let (ta, a) ← reevaluateBatch s stage left a
      let (tb, b) ← reevaluateBatch s stage right b
      return conclude c stage (op.eval ta tb) [a, b]
    | _ => throw (missingKid i kids.length)
  | f@(.negation i body), n@(.mk c kids) => do
    if !s.focus.affects f then
      return (← Routine.ofExcept c.committed, n)
    match kids with
    | [a] =>
      let (ta, a) ← reevaluateBatch s stage body a
      return conclude c stage (!ta) [a]
    | _ => throw (missingKid i kids.length)
  | .application .., n@(.mk c _) => return (← Routine.ofExcept c.committed, n)

end Setting

end RuleMonitor
