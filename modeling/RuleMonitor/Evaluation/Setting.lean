import RuleMonitor.Evaluation.FanOut
import RuleMonitor.FactStore
import RuleMonitor.Formula.Sentence
import RuleMonitor.Predicate

/-!
# The setting of a cycle

A cycle evaluates a rule over its facts. Depending on the patterns that changed, formulas are affected
by the cycle or not, and depending on the strategy some quantifiers hand their branches out to
workers.

* `Focus`: the formulas affected; `Focus.affects`.
* `Setting`: all that evaluation reads besides the instantiation.
* `concurrentTopmost`, `concurrentProfitable`: the quantifiers that hand out their branches.
-/

namespace RuleMonitor

/-- The formulas that a cycle affects. -/
inductive Focus where
  /-- All of them. -/
  | everything
  /-- Those that quantify over one of some patterns. -/
  | patterns (patterns : List String)
deriving DecidableEq, Repr

namespace Focus

/-- No formula is affected. -/
def nothing : Focus :=
  patterns []

/-- The formula is affected. -/
def affects (focus : Focus) (f : Formula) : Bool :=
  match focus with
  | everything => true
  | patterns ps => f.ranges ps

/-- A node of a rule is affected; one that the root does not reach never is, unless all are. -/
def affectsIndex (focus : Focus) (s : Sentence) (index : Nat) : Bool :=
  match focus with
  | everything => true
  | patterns ps => (s.formula.at? index).any fun f => f.ranges ps

end Focus

/-- All that evaluation reads besides the instantiation. -/
structure Setting where
  sentence : Sentence
  facts : FactStore
  registry : Registry
  focus : Focus := .nothing
  /-- The quantifiers that hand their branches out to workers. -/
  concurrent : List Nat := []
  /-- Links are only generated where they explain a violation. -/
  minimalLinks : Bool

namespace Setting

/-- A quantifier hands out so many branches. -/
def handsOut (s : Setting) (index branches : Nat) : Bool :=
  s.concurrent.contains index && 1 < branches

/-- Runs a task for each branch of a quantifier. -/
def forBranches {α β : Type} (s : Setting) (index : Nat) (f : α → Eval β) (items : List α) :
    Eval (List β) :=
  Eval.forEach (s.handsOut index items.length) f items

end Setting

/-- The quantifiers without a quantifier above them. -/
def concurrentTopmost (s : Sentence) : List Nat :=
  s.formula.topmost

/-- The affected quantifiers of depth two and more with enough independent work: several contexts
added or updated below which nothing is affected, or an affected body with several branches that
stay, or with some branch that is added. -/
def concurrentProfitable (s : Sentence) (facts : FactStore) (focus : Focus) : List Nat :=
  let profitable := s.formula.subformulas.filter fun f =>
    match f with
    | .quantified _ q body =>
      let delta := facts.delta q.pattern
      let added := delta.added.size
      let changed := added + delta.updated.size
      let staying := (facts.pool q.pattern).size - changed
      let inner := focus.affects body
      focus.affects f && 2 ≤ body.height &&
        ((1 < changed && !inner) || (1 < staying && inner) || (1 ≤ added && inner))
    | _ => false
  profitable.map Formula.index

end RuleMonitor
