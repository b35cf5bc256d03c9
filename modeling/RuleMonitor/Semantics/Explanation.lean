import RuleMonitor.Evaluation.Explanation
import RuleMonitor.Semantics.Truth

/-!
# The explanation of a formula

The links of a formula over pools, found together with its truth and without anything kept from
before: every branch of every quantifier is looked at, and those whose truth makes them a witness
contribute their links.

* `Formula.explanation`: the truth of a formula with its links.
* `Formula.witnesses`: the minimal links of a formula that is false.
-/

namespace RuleMonitor

/-- The links of the branches that are witnesses, each with the binding of its context. -/
def Quantifier.gather (q : Quantifier) : List (Context × Bool × LinkSet) → LinkSet
  | [] => ∅
  | (c, truth, links) :: rest =>
    let more := q.gather rest
    if truth = q.kind.witnessTruth then links.withBinding q.kind.linkKind q.var c.id ∪ more else more

namespace Formula

/-- The truth of a formula over pools in an environment, and its links. -/
def explanation (r : Registry) (pools : Pools) : Formula → Env → Except Failure (Bool × LinkSet)
  | quantified _ q body, env => do
    let branches ← (q.range pools env).mapM fun c => do
      return (c, ← explanation r pools body (q.bind env c))
    return (q.kind.fold (branches.map (·.2.1)), q.gather branches)
  | binary _ op left right, env => do
    let (a, l) ← explanation r pools left env
    let (b, m) ← explanation r pools right env
    return (op.eval a b, op.explain (op.eval a b) a b l m)
  | negation _ body, env => do
    let (a, l) ← explanation r pools body env
    return (!a, l.flipped)
  | application _ a, env => do
    let truth ← r.eval a env none
    return (truth, ∅)

/-- The minimal links of a closed formula that is false. -/
def witnesses (r : Registry) (pools : Pools) (f : Formula) : Except Failure (List Link) := do
  let (truth, links) ← f.explanation r pools ∅
  return if truth then [] else LinkSet.minimal links

end Formula

end RuleMonitor
