import RuleMonitor.Context
import RuleMonitor.Failure
import RuleMonitor.Link
import RuleMonitor.Truth

/-!
# Nodes of an instantiation

The instantiation of a formula has the shape of the formula, except that a quantifier has one branch
for each context that it admits. A node remembers what was found out about it: its truth, the truths
of its branches, and the links that explain it. Each node sits in a slot with an index, and the
functions here find and replace nodes by these indices.

* `Cell`: a node without the nodes below it; `Node`: a node with them, in order.
* `Fragment`: nodes that have no slots yet.
* `Node.cells`: all nodes in pre-order; `Node.find?`, `Node.lineage?`: the node in a slot.
* `Node.follow?`, `Node.update?`: the node at the end of a way.
* `Node.prune`, `Node.graft`: the node with one branch less, or one more.
-/

namespace RuleMonitor

open Std (ExtTreeMap)

/-- A node without the nodes below it. -/
structure Cell where
  /-- The slot. -/
  index : Nat
  /-- The index of the formula instantiated. -/
  formula : Nat
  env : Env
  /-- The context that the quantifier above bound for this branch. -/
  bound : Option Nat
  /-- The truth at the end of the last cycle. -/
  truth : Truth := .unknown
  /-- The truth found in this cycle, which may not be committed yet. -/
  staged : Truth := .unknown
  /-- The staged truth waits to be committed. -/
  pending : Bool := false
  /-- The links, if they were computed. -/
  links : Option LinkSet := none
  /-- The truths of the branches of a quantifier by their contexts. -/
  branchTruths : ExtTreeMap Nat Truth := ∅
  /-- The number of branches, the last ones, that were grafted since the node was touched. -/
  fresh : Nat := 0
  /-- A branch was removed since the node was touched. -/
  pruned : Bool := false
deriving DecidableEq

/-- Whether a truth that was found counts at once, or waits until the end of the cycle. -/
inductive Stage where
  | commit
  | hold
deriving DecidableEq, Repr

namespace Cell

/-- The committed truth as a Boolean. -/
def committed (c : Cell) : Except Failure Bool :=
  match c.truth.toBool? with
  | some b => .ok b
  | none => .error (.inconsistent "reading the truth of an unevaluated node")

/-- The staged truth as a Boolean. -/
def stagedTruth (c : Cell) : Except Failure Bool :=
  match c.staged.toBool? with
  | some b => .ok b
  | none => .error (.inconsistent "reading the virtual truth of an unevaluated node")

/-- The cell after a truth was found. -/
def write (c : Cell) (stage : Stage) (truth : Truth) : Cell :=
  match stage with
  | .commit => { c with staged := truth, truth }
  | .hold => { c with staged := truth, pending := true }

/-- The cell after the staged truth, if it waits, was committed. -/
def commit (c : Cell) : Cell :=
  if c.pending then { c with truth := c.staged, pending := false } else c

/-- The cell after the branch of one context was given to another one. -/
def rebindBranch (c : Cell) (old new : Nat) : Cell :=
  match c.branchTruths[old]? with
  | some truth => { c with branchTruths := (c.branchTruths.erase old).insert new truth }
  | none => c

/-- The cell of a node after one of its `length` branches was removed, the one at a position, which
was bound to a context. -/
def forget (c : Cell) (length position : Nat) (bound : Option Nat) : Cell :=
  { c with
    fresh := if length - c.fresh ≤ position then c.fresh - 1 else c.fresh
    branchTruths := match bound with
      | some id => c.branchTruths.erase id
      | none => c.branchTruths
    pruned := true }

end Cell

/-- A node of an instantiation, with the nodes below it in order. -/
inductive Node where
  | mk (cell : Cell) (kids : List Node)

/-- Nodes that have no slots yet. -/
inductive Fragment where
  | mk (formula : Nat) (env : Env) (bound : Option Nat) (kids : List Fragment)

namespace Fragment

mutual

/-- The number of nodes. -/
def size : Fragment → Nat
  | mk _ _ _ kids => sizeAll kids + 1

/-- The number of nodes of several fragments. -/
def sizeAll : List Fragment → Nat
  | [] => 0
  | f :: fs => f.size + sizeAll fs

end

mutual

/-- The formulas instantiated, in pre-order. -/
def formulas : Fragment → List Nat
  | mk formula _ _ kids => formula :: formulasAll kids

/-- The formulas that several fragments instantiate. -/
def formulasAll : List Fragment → List Nat
  | [] => []
  | f :: fs => f.formulas ++ formulasAll fs

end

mutual

/-- The fragment in slots, the nodes taking indices from the list in pre-order. Answers the node and
the indices that are left. -/
def place (slots : List Nat) : Fragment → Node × List Nat
  | mk formula env bound kids =>
    let (nodes, rest) := placeAll (slots.drop 1) kids
    (.mk { index := slots.headD 0, formula, env, bound } nodes, rest)

/-- Several fragments in slots. -/
def placeAll (slots : List Nat) : List Fragment → List Node × List Nat
  | [] => ([], slots)
  | f :: fs =>
    let (node, rest) := f.place slots
    let (nodes, rest') := placeAll rest fs
    (node :: nodes, rest')

end

end Fragment

namespace Node

/-- The node without the nodes below it. -/
def cell : Node → Cell
  | mk c _ => c

/-- The nodes right below. -/
def kids : Node → List Node
  | mk _ ks => ks

/-- The slot of the node. -/
def index (n : Node) : Nat :=
  n.cell.index

/-- The branches that were there before the node was touched. -/
def oldKids (n : Node) : List Node :=
  n.kids.take (n.kids.length - n.cell.fresh)

/-- The branches grafted since the node was touched. -/
def freshKids (n : Node) : List Node :=
  n.kids.drop (n.kids.length - n.cell.fresh)

/-! ## All nodes -/

mutual

/-- All nodes in pre-order. -/
def cells : Node → List Cell
  | mk c kids => c :: cellsAll kids

/-- All nodes of several branches in pre-order. -/
def cellsAll : List Node → List Cell
  | [] => []
  | n :: ns => n.cells ++ cellsAll ns

end

mutual

/-- All nodes with those below them, in pre-order. -/
def subtrees : Node → List Node
  | mk c kids => mk c kids :: subtreesAll kids

/-- All nodes of several branches with those below them, in pre-order. -/
def subtreesAll : List Node → List Node
  | [] => []
  | n :: ns => n.subtrees ++ subtreesAll ns

end

mutual

/-- All nodes, each after the nodes below it. -/
def postorder : Node → List Cell
  | mk c kids => postorderAll kids ++ [c]

/-- All nodes of several branches, each after the nodes below it. -/
def postorderAll : List Node → List Cell
  | [] => []
  | n :: ns => n.postorder ++ postorderAll ns

end

mutual

/-- The slots in the order in which they are freed: a node first, then its branches from the last to
the first. -/
def slots : Node → List Nat
  | mk c kids => c.index :: slotsAll kids

/-- The slots of several branches in the order in which they are freed. -/
def slotsAll : List Node → List Nat
  | [] => []
  | n :: ns => slotsAll ns ++ n.slots

end

mutual

/-- The nodes after a change of each one. -/
def map (f : Cell → Cell) : Node → Node
  | mk c kids => mk (f c) (mapAll f kids)

/-- Several branches after a change of each node. -/
def mapAll (f : Cell → Cell) : List Node → List Node
  | [] => []
  | n :: ns => n.map f :: mapAll f ns

end

mutual

/-- All nodes with those below them, in pre-order, each after the slot of the node above it. -/
def descent (above : Option Nat) : Node → List (Option Nat × Node)
  | mk c kids => (above, mk c kids) :: descentAll c.index kids

/-- All nodes of several branches of a node with those below them, in pre-order, each after the slot
of the node above it. -/
def descentAll (above : Nat) : List Node → List (Option Nat × Node)
  | [] => []
  | n :: ns => n.descent (some above) ++ descentAll above ns

end

/-! ## The node in a slot

A node is found by the slots on the way to it. Its lineage are its slot and those of the nodes above
it, up to the root. -/

mutual

/-- The node in a slot, with those below it. -/
def find? (index : Nat) : Node → Option Node
  | mk c kids => if c.index = index then some (mk c kids) else findAll? index kids

/-- The node in a slot among several branches. -/
def findAll? (index : Nat) : List Node → Option Node
  | [] => none
  | n :: ns =>
    match n.find? index with
    | some m => some m
    | none => findAll? index ns

end

mutual

/-- The lineage of the node in a slot, below nodes with the lineage `above`. -/
def lineage? (index : Nat) (above : List Nat) : Node → Option (List Nat)
  | mk c kids =>
    if c.index = index then some (index :: above) else lineageAll? index (c.index :: above) kids

/-- The lineage of the node in a slot among several branches. -/
def lineageAll? (index : Nat) (above : List Nat) : List Node → Option (List Nat)
  | [] => none
  | n :: ns =>
    match n.lineage? index above with
    | some lineage => some lineage
    | none => lineageAll? index above ns

end

/-- The position of the branch in a slot. -/
def position? (index : Nat) (kids : List Node) : Option Nat :=
  kids.findIdx? fun kid => kid.index = index

/-- The node that a way from branch to branch leads to. -/
def follow? : (way : List Nat) → Node → Option Node
  | [], n => some n
  | index :: way, mk _ kids => (kids.find? fun kid => kid.index = index).bind (follow? way)

/-- The nodes after a change of the one that a way leads to, if there is one. -/
def update? (f : Node → Node) : (way : List Nat) → Node → Option Node
  | [], n => some (f n)
  | index :: way, mk c kids => do
    let i ← position? index kids
    let kid ← update? f way (← kids[i]?)
    return mk c (kids.set i kid)

/-- The node without the branch in a slot. -/
def prune (index : Nat) : Node → Node
  | mk c kids =>
    match position? index kids with
    | some i => mk (c.forget kids.length i ((kids[i]?).bind (·.cell.bound))) (kids.eraseIdx i)
    | none => mk c kids

/-- The node with one more branch, the last one. -/
def graft : (n branch : Node) → Node
  | mk c kids, branch => mk { c with fresh := c.fresh + 1 } (kids ++ [branch])

/-- The node with nothing fresh and nothing pruned. -/
def touch : Node → Node
  | mk c kids => mk { c with fresh := 0, pruned := false } kids

/-- The node with another cell. -/
def onCell (f : Cell → Cell) : Node → Node
  | mk c kids => mk (f c) kids

end Node

end RuleMonitor
