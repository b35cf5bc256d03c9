import RuleMonitor.Formula.Basic
import RuleMonitor.Failure

/-!
# Drafts of rules

A rule is drafted bottom-up as a list of nodes that refer to their operands by index, and nothing is
checked until the draft is read from a root. Reading it succeeds if no variable and no pattern is
bound twice, filters depend on variables bound above them, and predicates are applied to variables
bound above them. It then answers the formula below the root.

* `Draft.push`: one more node; `Draft.restrict`: the filter of a quantifier.
* `Draft.read`: the formula below a root, or the first thing wrong with it.
-/

namespace RuleMonitor

open Std (ExtTreeMap)

/-- A node of a draft, with the indices of its operands. -/
inductive Shape where
  | quantified (q : Quantifier) (body : Nat)
  | binary (op : Connective) (left right : Nat)
  | negation (body : Nat)
  | application (a : Application)
deriving DecidableEq, Repr

namespace Shape

/-- The quantifier, if the node is one. -/
def quantifier? : Shape → Option Quantifier
  | quantified q _ => some q
  | _ => none

/-- The operands. -/
def kids : Shape → List Nat
  | quantified _ body | negation body => [body]
  | binary _ left right => [left, right]
  | application _ => []

end Shape

/-- The ways of repairing a violation that a rule can rule out. -/
inductive Repair where
  | addition
  | removal
  | update
deriving DecidableEq, Repr

/-- The word for a repair. -/
def Repair.word : Repair → String
  | addition => "addition"
  | removal => "removal"
  | update => "update"

/-- A rule being drafted. -/
structure Draft where
  /-- The identifier of the rule. -/
  rule : String
  nodes : List Shape := []
  /-- The repairs ruled out at a node, with their patterns. -/
  disabled : ExtTreeMap Nat (List (Repair × String)) := ∅
deriving DecidableEq

namespace Draft

/-- An error about the rule. -/
def fault (rule text : String) : Failure :=
  .of (.rule rule text)

/-- Adds a node, answers its index. -/
def push (shape : Shape) : Routine Draft Nat := do
  let d ← get
  set { d with nodes := d.nodes ++ [shape] }
  return d.nodes.length

/-- The position of a parameter: one written as a number is prefixed with `v`. -/
def position (text : String) : String :=
  if !text.isEmpty && text.toList.all Char.isDigit then "v" ++ text else text

/-- Adds a quantifier without a filter. -/
def pushQuantifier (kind : QuantifierKind) (var pattern : String) (body : Nat) :
    Routine Draft Nat :=
  push (.quantified { kind, var, pattern } body)

/-- Adds a predicate application. -/
def pushApplication (name : String) (params : List (String × String)) : Routine Draft Nat :=
  push (.application ⟨name, params.map fun p => (position p.1, p.2)⟩)

/-- Sets the filter of a quantifier. -/
def restrict (node : Nat) (name dep : String) : Routine Draft Unit := do
  let d ← get
  match Filter.ofName? name dep, d.nodes[node]? with
  | none, _ => throw (fault d.rule s!"unknown filter `{name}`")
  | some filter, some (.quantified q body) =>
    set { d with nodes := d.nodes.set node (.quantified { q with filter := some filter } body) }
  | some _, _ => throw (fault d.rule "filters can only apply to quantifiers")

/-- Rules out a repair at a node. -/
def disable (node : Nat) (repair : Repair) (pattern : String) : Routine Draft Unit :=
  modify fun d =>
    { d with disabled :=
        d.disabled.insert node (d.disabled.getD node [] ++ [(repair, pattern)]) }

/-! ## Reading a draft -/

/-- The variables and patterns bound so far. -/
structure Bound where
  vars : List String := []
  patterns : List String := []
deriving DecidableEq, Repr

/-- Registers the binding of a quantifier below the variables in `scope`. -/
def bindQuantifier (rule : String) (q : Quantifier) (scope : List String) : Routine Bound Unit := do
  let bound ← get
  if bound.vars.contains q.var then
    throw (fault rule s!"variable `{q.var}` is bound twice")
  if bound.patterns.contains q.pattern then
    throw (fault rule s!"pattern `{q.pattern}` is quantified twice")
  match q.filter with
  | some filter =>
    if !scope.contains filter.dep then
      throw (fault rule s!"filter of `{q.var}` depends on unbound variable `{filter.dep}`")
  | none => pure ()
  set { vars := q.var :: bound.vars, patterns := q.pattern :: bound.patterns : Bound }

/-- The parameters of a predicate are variables in `scope`. -/
def checkParams (rule : String) (a : Application) (scope : List String) : Routine Bound Unit :=
  match a.params.find? fun p => !scope.contains p.2 with
  | some (position, var) =>
    throw (fault rule s!"parameter `{position}` of `{a.name}` is bound to unknown variable `{var}`")
  | none => pure ()

/-- The crash of a look-up at `index` in a list of `length` nodes. -/
def outOfRange (length index : Nat) : Failure :=
  .crash (.text s!"there is no node {index} among {length}")

/-- The formula below the node `index`, where the variables in `scope` are bound above it. A draft
whose nodes refer to each other in circles is read until the fuel runs out. -/
def readNode (rule : String) (nodes : List Shape) :
    (fuel : Nat) → (index : Nat) → (scope : List String) → Routine Bound Formula
  | 0, _, _ => throw (.crash .silent)
  | fuel + 1, index, scope => do
    match nodes[index]? with
    | none => throw (outOfRange nodes.length index)
    | some (.quantified q body) =>
      bindQuantifier rule q scope
      return .quantified index q (← readNode rule nodes fuel body (q.var :: scope))
    | some (.binary op left right) =>
      let l ← readNode rule nodes fuel left scope
      let r ← readNode rule nodes fuel right scope
      return .binary index op l r
    | some (.negation body) => return .negation index (← readNode rule nodes fuel body scope)
    | some (.application a) =>
      checkParams rule a scope
      return .application index a

/-- Enough fuel to read `nodes`: a path longer than that goes round in a circle without binding
anything new. -/
def fuel (nodes : List Shape) : Nat :=
  2 * nodes.length + 2

/-- The formula below a root. -/
def read (d : Draft) (root : Nat) : Except Failure Formula :=
  if root < d.nodes.length then
    (readNode d.rule d.nodes (fuel d.nodes) root []).value {}
  else .error (fault d.rule "root is not a node of the formula")

end Draft

end RuleMonitor
