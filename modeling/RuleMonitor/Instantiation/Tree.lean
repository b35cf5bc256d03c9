import RuleMonitor.Formula.Sentence
import RuleMonitor.Instantiation.Node

/-!
# Instantiations

An instantiation keeps its nodes in slots. A fragment that is grafted takes free slots, those freed
last first, before new ones are opened; a branch that is removed frees its slots. For each cycle the
instantiation also keeps the slots of the nodes that explain a violation, the substantial ones, and
those of the cycle before.

* `Tree.graft`, `Tree.remove`, `Tree.touch`: changes of the structure.
* `Tree.apply`, `Tree.commit`: what evaluation found, written to the nodes.
* `Tree.rebind`, `Tree.renameLinks`: one context in the place of another.
-/

namespace RuleMonitor

open Std (ExtTreeMap ExtTreeSet)

/-- An instantiation of the formula of a rule. -/
structure Tree where
  root : Option Node := none
  /-- The free slots, the one freed last first. -/
  free : List Nat := []
  /-- The number of slots. -/
  slots : Nat := 0
  /-- The nodes that were substantial in the cycle before. -/
  wasSubstantial : ExtTreeSet Nat := ∅
  /-- The nodes that are substantial in this cycle. -/
  substantial : ExtTreeSet Nat := ∅

/-- What evaluation found, in the order in which it is written. -/
structure Findings where
  truths : List (Nat × Truth) := []
  /-- The truths of branches: the quantifier, the context of the branch, and the truth. -/
  branchTruths : List (Nat × Nat × Truth) := []
  links : List (Nat × LinkSet) := []
  substantial : List Nat := []

namespace Findings

/-- Nothing was found. -/
def isEmpty (f : Findings) : Bool :=
  f.truths.isEmpty && f.branchTruths.isEmpty && f.links.isEmpty && f.substantial.isEmpty

end Findings

namespace Tree

/-! ## Looking at an instantiation -/

/-- The number of nodes. -/
def size (t : Tree) : Nat :=
  t.slots - t.free.length

/-- All nodes in pre-order. -/
def cells (t : Tree) : List Cell :=
  match t.root with
  | some n => n.cells
  | none => []

/-- The node in a slot. -/
def find? (t : Tree) (index : Nat) : Option Node :=
  t.root.bind fun n => n.find? index

/-- The slot is free, or does not exist. -/
def notLive (index : Nat) : Failure :=
  .inconsistent s!"tree node {index} is not live"

/-- The node in a slot, which has to be live. -/
def node (t : Tree) (index : Nat) : Except Failure Node :=
  match t.find? index with
  | some n => .ok n
  | none => .error (notLive index)

/-- The node in a slot whose index was looked up; a free slot crashes. -/
def access (t : Tree) (index : Nat) : Except Failure Node :=
  match t.find? index with
  | some n => .ok n
  | none => .error (.crash (.text s!"access to freed tree node {index}"))

/-- The root, which has to exist. -/
def getRoot (t : Tree) : Except Failure Node :=
  match t.root with
  | some n => .ok n
  | none => .error (.inconsistent "instantiation tree has no root")

/-- The slots of the nodes in and below a slot, in pre-order. -/
def subtree (t : Tree) (index : Nat) : Except Failure (List Nat) := do
  return (← t.node index).cells.map (·.index)

/-- The slots of the quantifiers over a pattern, in increasing order. -/
def nodesOver (t : Tree) (s : Sentence) (pattern : String) : List Nat :=
  let quantifiers := t.cells.filter fun c =>
    match s.quantifierAt? c.formula with
    | some q => q.pattern = pattern
    | none => false
  (ExtTreeSet.ofList (quantifiers.map (·.index))).toList

/-! ## Changes of the structure -/

/-- The slots for `n` more nodes, in the order in which they are taken. -/
def nextSlots (t : Tree) (n : Nat) : List Nat :=
  t.free.take n ++ List.range' t.slots (n - t.free.length)

/-- The instantiation with its root replaced. -/
def mapRoot (t : Tree) (f : Node → Node) : Tree :=
  { t with root := t.root.map f }

/-- The node with a lineage. -/
def atLineage? (t : Tree) (lineage : List Nat) : Option Node := do
  let root ← t.root
  match lineage.reverse with
  | top :: way => if root.index = top then root.follow? way else none
  | [] => none

/-- The instantiation after a change of the node with a lineage, if there is one. -/
def update? (t : Tree) (lineage : List Nat) (f : Node → Node) : Option Tree := do
  let root ← t.root
  match lineage.reverse with
  | top :: way =>
    if root.index = top then return { t with root := some (← root.update? f way) } else none
  | [] => none

/-- The instantiation after a change of the node with a lineage. -/
def update (t : Tree) (lineage : List Nat) (f : Node → Node) : Tree :=
  (t.update? lineage f).getD t

/-- Changes the node with a lineage, which has to be live. -/
def changeAt (lineage : List Nat) (f : Node → Node) : Routine Tree Unit := do
  match (← get).update? lineage f with
  | some t => set t
  | none => throw (notLive (lineage.headD 0))

/-- Grafts a fragment as the last branch below the node with the lineage `parent`, or as the root.
Answers the slot of its root. -/
def graftAt (s : Sentence) (parent : Option (List Nat)) (fragment : Fragment) :
    Routine Tree Nat := do
  let t ← get
  match parent with
  | some p => if (t.atLineage? p).isNone then throw (notLive (p.headD 0))
  | none => if t.root.isSome then throw (.inconsistent "grafting a second root")
  match fragment.formulas.find? fun f => s.nodes.length ≤ f with
  | some f => throw (Draft.outOfRange s.nodes.length f)
  | none => pure ()
  let n := fragment.size
  let (branch, _) := fragment.place (t.nextSlots n)
  let taken := { t with free := t.free.drop n, slots := t.slots + (n - t.free.length) }
  match parent with
  | some p => set (taken.update p fun node => node.graft branch)
  | none => set { taken with root := some branch }
  return branch.index

/-- Removes the node with a lineage and all nodes below it. -/
def removeAt (lineage : List Nat) : Routine Tree Unit := do
  let t ← get
  match t.atLineage? lineage, lineage with
  | some n, index :: above =>
    let freed := n.slots
    let pruned :=
      if above.isEmpty then { t with root := none }
      else t.update above fun parent => parent.prune index
    set { pruned with
      free := freed.reverse ++ t.free
      wasSubstantial := freed.foldl (·.erase ·) t.wasSubstantial
      substantial := freed.foldl (·.erase ·) t.substantial }
  | _, _ => throw (notLive (lineage.headD 0))

/-- The lineage of the node in a slot, which has to be live. -/
def lineage (index : Nat) : Routine Tree (List Nat) := do
  match (← get).root.bind fun root => root.lineage? index [] with
  | some lineage => return lineage
  | none => throw (notLive index)

/-- Changes the node in a slot, which has to be live. -/
def change (index : Nat) (f : Node → Node) : Routine Tree Unit := do
  changeAt (← lineage index) f

/-- Grafts a fragment as the last branch below the node in the slot `parent`, or as the root. Answers
the slot of its root. -/
def graft (s : Sentence) (parent : Option Nat) (fragment : Fragment) : Routine Tree Nat := do
  match parent with
  | some p => graftAt s (some (← lineage p)) fragment
  | none => graftAt s none fragment

/-- Removes the node in a slot and all nodes below it. -/
def remove (index : Nat) : Routine Tree Unit := do
  removeAt (← lineage index)

/-- Forgets what was grafted and removed below the node in a slot. -/
def touch (index : Nat) : Routine Tree Unit :=
  change index Node.touch

/-- Starts a cycle. -/
def beginCycle (t : Tree) : Tree :=
  { t with wasSubstantial := t.substantial, substantial := ∅ }

/-! ## Writing what was found -/

/-- Marks nodes as substantial in this cycle. -/
def markSubstantial (t : Tree) (indices : List Nat) : Tree :=
  { t with substantial := t.substantial.insertMany indices }

/-- Writes findings to the nodes. What precedes a node that is not live stays written. -/
def apply (f : Findings) (stage : Stage) : Routine Tree Unit := do
  f.truths.forM fun (index, truth) =>
    change index (·.onCell fun c => c.write stage truth)
  f.branchTruths.forM fun (index, id, truth) =>
    change index (·.onCell fun c => { c with branchTruths := c.branchTruths.insert id truth })
  f.links.forM fun (index, links) =>
    change index (·.onCell fun c => { c with links := some links })
  modify (·.markSubstantial f.substantial)

/-- Commits all truths that wait. -/
def commit (t : Tree) : Tree :=
  t.mapRoot (·.map Cell.commit)

/-! ## One context in the place of another -/

/-- Binds a variable to another context in a branch of a quantifier. -/
def rebind (index : Nat) (var : String) (c : Context) : Routine Tree Unit := do
  let way ← lineage index
  let former := ((← get).atLineage? way).bind (·.cell.bound)
  changeAt way fun n =>
    (n.map fun cell => { cell with env := cell.env.insert var c }).onCell fun cell =>
      { cell with bound := some c.id }
  match former with
  | some old => modify (·.update way.tail (·.onCell (·.rebindBranch old c.id)))
  | none => pure ()

/-- Renames the bindings of a variable in all links. -/
def renameLinks (t : Tree) (var : String) (old new : Nat) : Tree :=
  t.mapRoot (·.map fun cell => { cell with links := cell.links.map (·.rename var old new) })

end Tree

end RuleMonitor
