import RuleMonitor.Instantiation.Tree
import RuleMonitor.Semantics.Truth

/-!
# Instances of a formula

An instance of a formula over pools is what its instantiation should be: a quantifier has one branch
for each context that it ranges over, in any order, bound to the context and with the variable bound
to its current value. An instance is settled if all truths agree with those of the formula.

* `Formula.Instance`: a node is an instance.
* `Formula.Settled`: the truths of a node and of those below it are right, committed and recorded.
-/

namespace RuleMonitor

open Std (ExtTreeMap)

/-- The cell stands for a formula in an environment, bound to a context. -/
def Cell.StandsFor (c : Cell) (f : Formula) (env : Env) (bound : Option Nat) : Prop :=
  c.formula = f.index ∧ c.env = env ∧ c.bound = bound

/-- The truth of the cell is that of a formula in its environment, and committed. -/
def Cell.Agrees (r : Registry) (pools : Pools) (f : Formula) (c : Cell) : Prop :=
  ∃ b, f.truth r pools c.env = .ok b ∧ c.truth = .ofBool b ∧ c.staged = .ofBool b

namespace Formula

/-- The node is an instance of a formula over pools, in an environment and bound to a context. -/
def Instance (pools : Pools) : Formula → Env → Option Nat → Node → Prop
  | f@(quantified _ q body), env, bound, .mk c kids =>
    c.StandsFor f env bound ∧
      ∃ order : List Context, order.Perm (q.range pools env) ∧ order.length = kids.length ∧
        ∀ p ∈ order.zip kids, Instance pools body (q.bind env p.1) (some p.1.id) p.2
  | f@(binary _ _ left right), env, bound, .mk c kids =>
    c.StandsFor f env bound ∧
      ∃ a b, kids = [a, b] ∧ Instance pools left env none a ∧ Instance pools right env none b
  | f@(negation _ body), env, bound, .mk c kids =>
    c.StandsFor f env bound ∧ ∃ a, kids = [a] ∧ Instance pools body env none a
  | f@(application ..), env, bound, .mk c kids => c.StandsFor f env bound ∧ kids = []

/-- The truths of a node and of the nodes below it agree with the formula, and a quantifier has
recorded those of its branches. -/
def Settled (r : Registry) (pools : Pools) : Formula → Node → Prop
  | f@(quantified _ _ body), .mk c kids =>
    c.Agrees r pools f ∧ (∀ kid ∈ kids, Settled r pools body kid) ∧
      c.branchTruths = .ofList (kids.map fun kid => (kid.cell.bound.getD 0, kid.cell.truth))
  | f@(binary _ _ left right), .mk c kids =>
    c.Agrees r pools f ∧ ∃ a b, kids = [a, b] ∧ Settled r pools left a ∧ Settled r pools right b
  | f@(negation _ body), .mk c kids =>
    c.Agrees r pools f ∧ ∃ a, kids = [a] ∧ Settled r pools body a
  | f@(application ..), .mk c _ => c.Agrees r pools f

end Formula

end RuleMonitor
