import RuleMonitor.FactStore
import RuleMonitor.Predicate

/-!
# The truth of a formula

A formula has a truth over pools, whatever the instantiation that a rule keeps. A quantifier ranges
over the contexts of its pattern that it admits, in the order of their identities, and all operands
are evaluated from left to right, so that the first predicate that fails decides the failure.

* `Quantifier.range`: the contexts that a quantifier ranges over.
* `Formula.truth`: the truth of a formula in an environment.
-/

namespace RuleMonitor

/-- The contexts that a quantifier ranges over. -/
def Quantifier.range (q : Quantifier) (pools : Pools) (env : Env) : List Context :=
  (pools.domain q.pattern).filter fun c => q.admits env c

/-- The truth of a formula over pools in an environment. -/
def Formula.truth (r : Registry) (pools : Pools) : Formula → Env → Except Failure Bool
  | quantified _ q body, env => do
    let truths ← (q.range pools env).mapM fun c => truth r pools body (q.bind env c)
    return q.kind.fold truths
  | binary _ op left right, env => do
    let a ← truth r pools left env
    let b ← truth r pools right env
    return op.eval a b
  | negation _ body, env => do
    let a ← truth r pools body env
    return !a
  | application _ a, env => r.eval a env none

end RuleMonitor
