/-!
# Strategies

How a cycle finds the truth of a rule. All strategies agree on the truth and on the witnesses.

* `Strategy.name`, `Strategy.ofName?`: the names under which strategies are chosen.
-/

namespace RuleMonitor

/-- The ways of checking a rule. -/
inductive Strategy where
  /-- The instantiation is rebuilt. -/
  | full
  /-- Changes are processed one at a time. -/
  | change
  /-- The whole batch is processed at once. -/
  | batch
  /-- The instantiation is rebuilt, the topmost quantifiers handing out their branches. -/
  | fullConcurrent
  /-- The whole batch is processed at once, quantifiers handing out their branches where that pays,
  and truths are committed at the end. -/
  | batchConcurrent
deriving DecidableEq, Repr

namespace Strategy

/-- All strategies. -/
def all : List Strategy :=
  [full, change, batch, fullConcurrent, batchConcurrent]

/-- The name of a strategy. -/
def name : Strategy → String
  | full => "ecc"
  | change => "pcc"
  | batch => "pccm"
  | fullConcurrent => "conc"
  | batchConcurrent => "cpcc_nb"

/-- The strategy with a name. -/
def ofName? (name : String) : Option Strategy :=
  all.find? fun s => s.name = name

theorem ofName?_name (s : Strategy) : ofName? s.name = some s := by
  cases s <;> decide

end Strategy

end RuleMonitor
