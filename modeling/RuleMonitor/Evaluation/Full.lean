import RuleMonitor.Evaluation.Setting
import RuleMonitor.Instantiation.Tree
import RuleMonitor.Semantics.Truth

/-!
# Full evaluation

Full evaluation instantiates a formula over the pools and finds the truth of every node, from the
leaves up. It is the measure of all other strategies, which use it for the branches that are new in a
cycle.

* `Setting.instantiate`: the instantiation of a formula in an environment.
* `Setting.instantiateNode`: that of a node of the draft, whether the root reaches it or not.
* `Setting.evaluate`: the truth of a node, with all truths below it.
* `Setting.recordBranches`: the truths of branches noted at their quantifier.
-/

namespace RuleMonitor

namespace Setting

/-! ## Instantiation -/

/-- The instantiation of a formula in an environment, as a branch bound to a context. -/
def instantiate (s : Setting) : Formula → Env → Option Nat → Eval Fragment
  | .quantified i q body, env, bound => do
    let branch (c : Context) : Eval Fragment := instantiate s body (q.bind env c) (some c.id)
    return .mk i env bound (← s.forBranches i branch (q.range s.facts.pools env))
  | .binary i _ left right, env, bound => do
    let l ← instantiate s left env none
    let r ← instantiate s right env none
    return .mk i env bound [l, r]
  | .negation i body, env, bound => do
    return .mk i env bound [← instantiate s body env none]
  | .application i _, env, bound => return .mk i env bound []

/-- The instantiation of the node `index` of the draft, down to a length of paths. -/
def instantiateTo (s : Setting) : (length : Nat) → (index : Nat) → Env → Option Nat → Eval Fragment
  | 0, _, _, _ => throw (.crash .silent)
  | length + 1, index, env, bound => do
    match s.sentence.nodes[index]? with
    | none => throw (Draft.outOfRange s.sentence.nodes.length index)
    | some (.quantified q body) =>
      let branch (c : Context) : Eval Fragment :=
        instantiateTo s length body (q.bind env c) (some c.id)
      return .mk index env bound (← s.forBranches index branch (q.range s.facts.pools env))
    | some (.binary _ left right) =>
      let l ← instantiateTo s length left env none
      let r ← instantiateTo s length right env none
      return .mk index env bound [l, r]
    | some (.negation body) =>
      return .mk index env bound [← instantiateTo s length body env none]
    | some (.application _) => return .mk index env bound []

/-- The number of contexts in all pools. -/
def contexts (s : Setting) : Nat :=
  s.facts.pools.values.foldl (fun n pool => n + pool.size) 0

/-- The number of different nodes with their environments that a path can go through. A longer path
comes back to one of them, and has no end. -/
def longestPath (s : Setting) : Nat :=
  s.sentence.nodes.length * Nat.pow (s.contexts + 1) s.sentence.nodes.length

/-- The instantiation of a node of the draft in an environment, as a branch bound to a context. Nodes
that the root does not reach were never read, so only those that the instantiation reaches have to
exist, and the bodies of quantifiers over nothing are not among them. -/
def instantiateNode (s : Setting) (index : Nat) (env : Env) (bound : Option Nat) : Eval Fragment :=
  s.instantiateTo (s.longestPath + 1) index env bound

/-! ## Truths -/

/-- The context that a branch of a quantifier is bound to. -/
def boundOf (kid : Node) : Except Failure Nat :=
  match kid.cell.bound with
  | some id => .ok id
  | none => .error (.inconsistent s!"child {kid.index} of a quantifier node is unbound")

/-- The cell of a quantifier with the truths of some branches noted. -/
def recordBranches (c : Cell) : List (Bool × Node) → Except Failure Cell
  | [] => .ok c
  | (truth, kid) :: rest => do
    let id ← boundOf kid
    recordBranches { c with branchTruths := c.branchTruths.insert id (.ofBool truth) } rest

/-- An operand is missing from a node. -/
def missingKid (index position : Nat) : Failure :=
  .inconsistent s!"connective node for {index} is missing child {position}"

/-- The truth of a node from its formula, with the truth written to the node. -/
def conclude (c : Cell) (stage : Stage) (truth : Bool) (kids : List Node) : Bool × Node :=
  (truth, .mk (c.write stage (.ofBool truth)) kids)

/-- The truth of a node, and the node with the truths of all nodes below it. Variables are looked up
in the substitution first. -/
def evaluate (s : Setting) (stage : Stage) (subst : Option Substitution) :
    Formula → Node → Eval (Bool × Node)
  | .quantified i q body, .mk c kids => do
    let branches ← s.forBranches i (evaluate s stage subst body) kids
    let c ← Routine.ofExcept (recordBranches c branches)
    return conclude c stage (q.kind.fold (branches.map (·.1))) (branches.map (·.2))
  | .binary i op left right, .mk c kids => do
    match kids with
    | [a, b] =>
      let (ta, a) ← evaluate s stage subst left a
      let (tb, b) ← evaluate s stage subst right b
      return conclude c stage (op.eval ta tb) [a, b]
    | _ => throw (missingKid i kids.length)
  | .negation i body, .mk c kids => do
    match kids with
    | [a] =>
      let (ta, a) ← evaluate s stage subst body a
      return conclude c stage (!ta) [a]
    | _ => throw (missingKid i kids.length)
  | .application _ a, .mk c kids => do
    let truth ← Routine.ofExcept (s.registry.eval a c.env subst)
    return conclude c stage truth kids

end Setting

end RuleMonitor
