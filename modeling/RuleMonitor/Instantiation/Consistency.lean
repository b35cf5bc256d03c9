import RuleMonitor.Instantiation.Arena

/-!
# Consistent instantiations

An arena is consistent if all its nodes are reached from the root, if each node stands below the one
that lists it, if the tables have the quantifiers and nothing else, and if each quantifier has the
truths of its branches. All truths have to be committed. What is found wrong first is reported: the
nodes are looked at in the order of their slots.

An instantiation is checked in its slots. The node above a node and the tables, which an arena keeps
step by step, are read off the nodes there. So if every node has a slot of its own, four of the tests
hold by construction: that the root is below no other node, that branches are below their node, that a
quantifier is in the table, and that the table has nothing else. If nodes share slots, or are in none,
these can fail, too. An arena that stands for the instantiation passes if and only if the instantiation
does, and there is one for each instantiation of a rule (`Tree.Stands.exists_check`).

* `Arena.check`: the consistency of an arena.
* `Tree.arena`: the slots of an instantiation.
* `Tree.check`: the consistency of an instantiation.
-/

namespace RuleMonitor

open Std (ExtTreeMap ExtTreeSet)

/-- What a slot holds of a cell, below the slot `parent` and above the slots `kids`. -/
def Cell.record (c : Cell) (parent : Option Nat) (kids : List Nat) : Record where
  formula := c.formula
  env := c.env
  bound := c.bound
  kids := kids
  parent := parent
  truth := c.truth
  staged := c.staged
  links := c.links
  branchTruths := c.branchTruths
  fresh := c.fresh
  pruned := c.pruned

namespace Arena

/-- The node in a slot whose index was looked up; a free slot crashes. -/
def access (a : Arena) (index : Nat) : Except Failure Record :=
  match a.node? index with
  | some r => .ok r
  | none => .error (.crash (.text s!"access to freed tree node {index}"))

/-- The number of nodes reached from the root, which has to be a node below no other. -/
def countReachable (a : Arena) : Except Failure Nat :=
  match a.root with
  | none => return 0
  | some root => do
    if (a.node? root).all (·.parent.isSome) then
      throw (.inconsistent s!"root {root} is not a live orphan")
    return (← a.subtree root).length

/-- All nodes are reached from the root. -/
def checkReach (a : Arena) : Except Failure Unit := do
  let reachable ← a.countReachable
  if reachable ≠ a.size then
    throw (.inconsistent s!"{a.size} live node(s), {reachable} reachable")

/-- A branch of the node in the slot `index` is a node below it. -/
def checkBranch (a : Arena) (index kid : Nat) : Except Failure Unit :=
  if (a.node? kid).bind (·.parent) = some index then .ok ()
  else .error (.inconsistent s!"node {kid} is a child of {index} but not the other way around")

/-- The staged truths of branches by the contexts that they are bound to. -/
def boundTruths (a : Arena) (index : Nat) (kids : List Nat) :
    Except Failure (ExtTreeMap Nat Truth) :=
  kids.foldlM (fun truths kid => do
    let r ← a.access kid
    match r.bound with
    | some id => return truths.insert id r.staged
    | none => throw (.inconsistent s!"child of quantifier node {index} is not bound")) ∅

/-- A quantifier is in the table under its pattern, its branches are bound to different contexts, and
it has their truths. -/
def checkQuantifier (a : Arena) (q : Quantifier) (index : Nat) (r : Record) : Except Failure Unit := do
  if !(a.quantifiersOver q.pattern).contains index then
    throw (.inconsistent s!"node {index} is not registered for `{q.pattern}`")
  let truths ← a.boundTruths index r.kids
  if truths.size ≠ r.kids.length then
    throw (.inconsistent s!"node {index} has two children bound to the same context")
  if truths ≠ r.branchTruths then
    throw (.inconsistent s!"child map of node {index} is out of sync with its children")

/-- The truth of a node is committed, its branches are below it, and if it is a quantifier, they are
those that it has the truths of. -/
def checkNode (a : Arena) (s : Sentence) (index : Nat) (r : Record) : Except Failure Unit := do
  if r.staged ≠ r.truth then
    throw (.inconsistent s!"node {index} has uncommitted virtual truth {r.staged.word}")
  r.kids.forM (a.checkBranch index)
  match s.quantifierAt? r.formula with
  | some q => a.checkQuantifier q index r
  | none => return

/-- The node in a slot, if there is one. -/
def checkSlot (a : Arena) (s : Sentence) : Nat × Option Record → Except Failure Unit
  | (index, some r) => a.checkNode s index r
  | (_, none) => .ok ()

/-- What the table has under a pattern quantifies over it. -/
def checkEntry (a : Arena) (s : Sentence) (pattern : String) (index : Nat) : Except Failure Unit :=
  if (a.node? index).bind (fun r => s.patternAt? r.formula) = some pattern then .ok ()
  else .error (.inconsistent s!"node {index} is registered for `{pattern}` but does not range over it")

/-- The slots are linked to one tree, all truths are committed, and the tables fit the nodes. -/
def check (a : Arena) (s : Sentence) : Except Failure Unit := do
  a.checkReach
  ((List.range a.nodes.length).zip a.nodes).forM (a.checkSlot s)
  a.quantifiers.toList.forM fun (pattern, indices) => indices.toList.forM (a.checkEntry s pattern)

end Arena

namespace Tree

/-- What the slots of the nodes hold, in pre-order. -/
def records (t : Tree) : List (Nat × Record) :=
  match t.root with
  | some root => (root.descent none).map fun (above, n) =>
      (n.index, n.cell.record above (n.kids.map Node.index))
  | none => []

/-- The slots of an instantiation with nothing in them. -/
def frame (t : Tree) : Arena where
  nodes := List.replicate t.slots none
  free := t.free
  root := t.root.map Node.index
  wasSubstantial := t.wasSubstantial
  substantial := t.substantial
  staged := .ofList ((t.cells.filter (·.pending)).map (·.index))

/-- The slots of an instantiation, with the tables that can be read off its nodes. -/
def arena (t : Tree) (s : Sentence) : Arena :=
  t.records.foldl (fun a (index, r) => a.occupy s index r) t.frame

/-- The instantiation is consistent in its slots: each is that of one node that is reached from the root,
or free, all truths are committed, and quantifiers have the truths of their branches. What was read off
the nodes is not found wrong then. -/
def check (t : Tree) (s : Sentence) : Except Failure Unit :=
  (t.arena s).check s

end Tree

end RuleMonitor
