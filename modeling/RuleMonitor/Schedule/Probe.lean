import RuleMonitor.Checker

/-!
# Probing

A context can take the place of another one without a cycle if no truth of the instantiation depends
on which of the two it is. A probe evaluates all branches bound to the one as if they were bound to
the other, and compares the truths.

* `Setting.probe`: the branches to be rebound, if the replacement cannot be observed.
* `Checker.probe`, `Checker.replace`: the probe of a rule, and the replacement made.
-/

namespace RuleMonitor

/-- Branches of a rule to be bound to another context. -/
structure Replacement where
  rule : String
  pattern : String
  /-- The variable over the pattern. -/
  var : String
  /-- The context to be replaced. -/
  del : Context
  /-- The context in its place. -/
  add : Context
  /-- The slots of the branches bound to `del`. -/
  branches : List Nat
deriving DecidableEq

namespace Setting

/-- All nodes keep their truths. -/
def unmoved (n : Node) : Bool :=
  n.cells.all fun c => c.staged = c.truth

/-- The branch of the quantifier in a slot that is bound to `del`, if there is one. The answer is none
if the replacement by `add` can be observed below the quantifier. -/
def probeNode (s : Setting) (q : Quantifier) (body : Formula) (del add : Context) (n : Node) :
    Eval (Option (List Nat)) := do
  if q.admits n.cell.env del ≠ q.admits n.cell.env add then return none
  match ← Routine.ofExcept (branchOf q n del) with
  | none => return some []
  | some branch =>
    let (_, found) ← s.evaluate .hold (some ⟨q.var, add⟩) body branch
    return if unmoved found then some [branch.index] else none

/-- The branches bound to `del` below the quantifiers in the slots given, unless the replacement by
`add` can be observed. -/
def probeNodes (s : Setting) (t : Tree) (q : Quantifier) (body : Formula) (del add : Context) :
    List Nat → Eval (Option (List Nat))
  | [] => return some []
  | index :: rest => do
    let n ← Routine.ofExcept (t.access index)
    match ← probeNode s q body del add n with
    | none => return none
    | some found =>
      match ← probeNodes s t q body del add rest with
      | none => return none
      | some more => return some (found ++ more)

/-- The branches to be rebound for `add` to take the place of `del` in a pattern. The answer is none
if that can be observed, or if no branch is bound to `del`. -/
def probe (s : Setting) (t : Tree) (pattern : String) (del add : Context) :
    Eval (Option Replacement) := do
  match (s.sentence.quantifierOf? pattern).bind (Formula.at? · s.sentence.formula) with
  | some (.quantified _ q body) =>
    if del.id ≠ add.id && s.sentence.filterDependsOn q.var then return none
    match ← probeNodes s t q body del add (t.nodesOver s.sentence pattern) with
    | none => return none
    | some [] => return none
    | some branches => return some ⟨s.sentence.rule, pattern, q.var, del, add, branches⟩
  | _ => return none

end Setting

namespace Checker

/-- Probes a rule. -/
def probe (c : Checker) (id pattern : String) (del add : Context) :
    Except Failure (Option Replacement) :=
  c.withSetting id fun r s => (s.probe r.tree pattern del add).value 0

/-- Makes a replacement. -/
def replace (r : Replacement) : Routine Checker Unit :=
  onRule r.rule (Rule.swapBranches r.pattern r.var r.del r.add r.branches)

end Checker

end RuleMonitor
