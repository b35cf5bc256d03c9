import RuleMonitor.Instantiation.Tree

/-!
# Instantiations in slots

An arena keeps the nodes of an instantiation in a list of slots. What a node has to say of other nodes
are their indices: its branches, and the node above it. Beside the slots stand tables of indices: the
free slots, the quantifiers over each pattern, the substantial nodes of this cycle and of the one
before, and the nodes whose truth waits to be committed. `Tree` is the instantiation that an arena
stands for, with the tables read off its nodes.

* `Record`: what a slot holds of a node.
* `Parts`: nodes that have no slots yet, put together by `Parts.single` and `Parts.absorb`;
  `Fragment.parts`.
* `Arena.tree`: the instantiation that an arena stands for.
* `Arena.graft`, `Arena.remove`, `Arena.touch`: changes of the structure.
* `Arena.apply`, `Arena.commit`: what evaluation found, written to the nodes.
* `Arena.rebind`, `Arena.renameLinks`: one context in the place of another.
-/

namespace RuleMonitor

open Std (ExtTreeMap ExtTreeSet)

/-- What a slot holds: a node, with the indices of the nodes right below it and above it. -/
structure Record where
  /-- The index of the formula instantiated. -/
  formula : Nat
  env : Env
  /-- The context that the quantifier above bound for this branch. -/
  bound : Option Nat
  kids : List Nat := []
  parent : Option Nat := none
  /-- The truth at the end of the last cycle. -/
  truth : Truth := .unknown
  /-- The truth found in this cycle. -/
  staged : Truth := .unknown
  /-- The links, if they were computed. -/
  links : Option LinkSet := none
  /-- The truths of the branches of a quantifier by their contexts. -/
  branchTruths : ExtTreeMap Nat Truth := ∅
  /-- The number of branches, the last ones, that were grafted since the node was touched. -/
  fresh : Nat := 0
  /-- A branch was removed since the node was touched. -/
  pruned : Bool := false

namespace Record

/-- The record with its branches in other places, below another node. -/
def settle (r : Record) (place : Nat → Nat) (parent : Option Nat) : Record :=
  { r with kids := r.kids.map place, parent }

/-- The record with one more branch, the last one. -/
def extend (r : Record) (branch : Nat) : Record :=
  { r with kids := r.kids ++ [branch] }

/-- The record with one more branch, which is fresh. -/
def graft (r : Record) (branch : Nat) : Record :=
  { r.extend branch with fresh := r.fresh + 1 }

/-- The record without the branch at a position, which was bound to a context. -/
def forget (r : Record) (position : Nat) (bound : Option Nat) : Record :=
  { r with
    fresh := if r.kids.length - r.fresh ≤ position then r.fresh - 1 else r.fresh
    kids := r.kids.eraseIdx position
    branchTruths := match bound with
      | some id => r.branchTruths.erase id
      | none => r.branchTruths
    pruned := true }

/-- The record with nothing fresh and nothing pruned. -/
def touch (r : Record) : Record :=
  { r with fresh := 0, pruned := false }

/-- The number of branches that are not fresh; crashes if more are fresh than there are. -/
def settledCount (r : Record) : Except Failure Nat :=
  if r.fresh ≤ r.kids.length then .ok (r.kids.length - r.fresh)
  else .error (.crash (.text "attempt to subtract with overflow"))

/-- The branches that were there before the node was touched. -/
def oldKids (r : Record) : Except Failure (List Nat) := do
  return r.kids.take (← r.settledCount)

/-- The branches grafted since the node was touched. -/
def freshKids (r : Record) : Except Failure (List Nat) := do
  return r.kids.drop (← r.settledCount)

/-- The record after a truth was found. -/
def write (r : Record) (stage : Stage) (truth : Truth) : Record :=
  match stage with
  | .commit => { r with staged := truth, truth }
  | .hold => { r with staged := truth }

/-- The record after the staged truth was committed. -/
def commit (r : Record) : Record :=
  { r with truth := r.staged }

/-- The record with a variable read for a context. -/
def substitute (r : Record) (var : String) (c : Context) : Record :=
  { r with env := r.env.insert var c }

/-- The record of a branch bound to a context. -/
def bind (r : Record) (id : Nat) : Record :=
  { r with bound := some id }

/-- The record after the branch of one context was given to another one. -/
def rebindBranch (r : Record) (old new : Nat) : Record :=
  match r.branchTruths[old]? with
  | some truth => { r with branchTruths := (r.branchTruths.erase old).insert new truth }
  | none => r

/-- The record with the bindings of a variable renamed in its links. -/
def renameLinks (r : Record) (var : String) (old new : Nat) : Record :=
  match r.links with
  | some links =>
    if links.mentions var old then { r with links := some (links.rename var old new) } else r
  | none => r

end Record

/-! ## Nodes without slots -/

/-- Nodes that have no slots yet, the root first. Branches and parents are positions among them. -/
structure Parts where
  nodes : List Record

namespace Parts

/-- A single node. -/
def single (formula : Nat) (env : Env) (bound : Option Nat) : Parts :=
  ⟨[{ formula, env, bound }]⟩

/-- The nodes in other places, the root below another node. -/
def settled (p : Parts) (place : Nat → Nat) (parent : Option Nat) : List Record :=
  p.nodes.mapIdx fun position r =>
    r.settle place (if position = 0 then parent else r.parent.map place)

/-- The nodes with those of `other` behind them, whose root is the last branch of the node at the
position `parent`. -/
def join (p : Parts) (parent : Nat) (other : Parts) : Parts :=
  let offset := p.nodes.length
  ⟨(p.nodes ++ other.settled (· + offset) (some parent)).modify parent (·.extend offset)⟩

/-- Takes the nodes of `other` over; crashes where there is no node at the position `parent`. -/
def absorb (p : Parts) (parent : Nat) (other : Parts) : Except Failure Parts :=
  let length := p.nodes.length + other.nodes.length
  if parent < length then .ok (p.join parent other) else .error (Draft.outOfRange length parent)

end Parts

namespace Fragment

mutual

/-- The fragment put together, with each branch absorbed by the node above it. -/
def parts : Fragment → Parts
  | mk formula env bound kids => partsAll kids (.single formula env bound)

/-- Parts that absorb several fragments as branches of their root. -/
def partsAll : List Fragment → Parts → Parts
  | [], p => p
  | fr :: frs, p => partsAll frs (p.join 0 fr.parts)

end

end Fragment

/-- The nodes of an instantiation in slots. -/
structure Arena where
  /-- The slots, with nothing in those that are free. -/
  nodes : List (Option Record) := []
  /-- The free slots, the one freed last first. -/
  free : List Nat := []
  root : Option Nat := none
  /-- The quantifiers by their patterns. -/
  quantifiers : ExtTreeMap String (ExtTreeSet Nat) := ∅
  /-- The nodes that were substantial in the cycle before. -/
  wasSubstantial : ExtTreeSet Nat := ∅
  /-- The nodes that are substantial in this cycle. -/
  substantial : ExtTreeSet Nat := ∅
  /-- The nodes whose staged truth waits to be committed. -/
  staged : ExtTreeSet Nat := ∅

namespace Arena

/-! ## Looking at an arena -/

/-- The number of nodes. -/
def size (a : Arena) : Nat :=
  a.nodes.length - a.free.length

/-- The node in a slot. -/
def node? (a : Arena) (index : Nat) : Option Record :=
  (a.nodes[index]?).join

/-- The node in a slot, which has to be live. -/
def node (a : Arena) (index : Nat) : Except Failure Record :=
  match a.node? index with
  | some r => .ok r
  | none => .error (Tree.notLive index)

/-- The quantifiers over a pattern. -/
def quantifiersOver (a : Arena) (pattern : String) : ExtTreeSet Nat :=
  (a.quantifiers[pattern]?).getD ∅

/-- The slots of the quantifiers over a pattern, in increasing order. -/
def nodesOver (a : Arena) (pattern : String) : List Nat :=
  (a.quantifiersOver pattern).toList

/-- The slots below those on a stack, in pre-order. In an instantiation the walk comes to each slot
once, so that as many steps as there are slots are enough. -/
def walk (a : Arena) : (steps : Nat) → (stack : List Nat) → Except Failure (List Nat)
  | _, [] => .ok []
  | 0, index :: _ => .error (.inconsistent s!"tree node {index} is below itself")
  | steps + 1, index :: stack => do
    let r ← a.node index
    return index :: (← a.walk steps (r.kids ++ stack))

/-- The slots of the nodes in and below a slot, in pre-order. -/
def subtree (a : Arena) (index : Nat) : Except Failure (List Nat) :=
  a.walk (a.nodes.length + 1) [index]

/-- What a record says of its node, with what the tables say of it. -/
def cell (a : Arena) (index : Nat) (r : Record) : Cell where
  index
  formula := r.formula
  env := r.env
  bound := r.bound
  truth := r.truth
  staged := r.staged
  pending := a.staged.contains index
  links := r.links
  branchTruths := r.branchTruths
  fresh := r.fresh
  pruned := r.pruned

/-- The node in a slot, and those below it in as many levels. -/
def read (a : Arena) : (levels index : Nat) → Option Node
  | 0, _ => none
  | levels + 1, index =>
    (a.node? index).map fun r => .mk (a.cell index r) (r.kids.filterMap (a.read levels))

/-- The instantiation that the arena stands for. -/
def tree (a : Arena) : Tree where
  root := a.root.bind (a.read a.nodes.length)
  free := a.free
  slots := a.nodes.length
  wasSubstantial := a.wasSubstantial
  substantial := a.substantial

/-! ## Changes of a slot -/

/-- The arena after a change of the node in a slot. -/
def amend (a : Arena) (index : Nat) (f : Record → Record) : Arena :=
  { a with nodes := a.nodes.modify index (·.map f) }

/-- Changes the node in a slot, which has to be live. -/
def alter (index : Nat) (f : Record → Record) : Routine Arena Unit := do
  let _ ← Routine.ofExcept ((← get).node index)
  modify (·.amend index f)

/-- The arena with a node in a slot. -/
def occupy (a : Arena) (s : Sentence) (index : Nat) (r : Record) : Arena :=
  { a with
    nodes := a.nodes.set index (some r)
    quantifiers := match s.quantifierAt? r.formula with
      | some q => a.quantifiers.insert q.pattern ((a.quantifiersOver q.pattern).insert index)
      | none => a.quantifiers }

/-- The arena without the node in a slot, which is free then. -/
def vacate (a : Arena) (s : Sentence) (index : Nat) (r : Record) : Arena :=
  { a with
    nodes := a.nodes.set index none
    free := index :: a.free
    quantifiers := match s.quantifierAt? r.formula with
      | some q => a.quantifiers.modify q.pattern (·.erase index)
      | none => a.quantifiers
    wasSubstantial := a.wasSubstantial.erase index
    substantial := a.substantial.erase index
    staged := a.staged.erase index }

/-- Takes the slot that was freed last, or else opens a new one. -/
def allocate : Routine Arena Nat := do
  let a ← get
  match a.free with
  | index :: free =>
    set { a with free }
    return index
  | [] =>
    set { a with nodes := a.nodes ++ [none] }
    return a.nodes.length

/-- Takes slots one after the other. -/
def allocateAll : Nat → Routine Arena (List Nat)
  | 0 => return []
  | n + 1 => do
    let index ← allocate
    return index :: (← allocateAll n)

/-- Puts nodes into slots one after the other. -/
def occupyAll (s : Sentence) (l : List (Nat × Record)) : Routine Arena Unit :=
  l.forM fun e => modify (·.occupy s e.1 e.2)

/-! ## Changes of the structure -/

/-- Puts nodes into slots, as the last branch below the node in the slot `parent`, or as the root.
Answers the slot of their root. -/
def graft (s : Sentence) (parent : Option Nat) (p : Parts) : Routine Arena Nat := do
  let a ← get
  match parent with
  | some index => discard (Routine.ofExcept (a.node index))
  | none => if a.root.isSome then throw (.inconsistent "grafting a second root")
  match p.nodes.find? fun r => s.nodes.length ≤ r.formula with
  | some r => throw (Draft.outOfRange s.nodes.length r.formula)
  | none => pure ()
  let slots ← allocateAll p.nodes.length
  let place position := slots.getD position 0
  occupyAll s (slots.zip (p.settled place parent))
  match parent with
  | some index => alter index (·.graft (place 0))
  | none => modify ({ · with root := some (place 0) })
  return place 0

theorem countP_vacate_lt {a : Arena} {index : Nat} {r : Record} (h : a.node? index = some r)
    (s : Sentence) :
    (a.vacate s index r).nodes.countP Option.isSome < a.nodes.countP Option.isSome := by
  obtain ⟨hi, hr⟩ := List.getElem?_eq_some_iff.mp (Option.join_eq_some_iff.mp h)
  have hmem : some r ∈ a.nodes := hr ▸ List.getElem_mem hi
  have hpos : 0 < a.nodes.countP Option.isSome := List.countP_pos_iff.mpr ⟨_, hmem, rfl⟩
  change (a.nodes.set index none).countP Option.isSome < _
  rw [List.countP_set hi, hr]
  simp only [Option.isSome_some, Option.isSome_none, if_true, Bool.false_eq_true, if_false]
  omega

/-- Frees the slots on a stack and all slots below them. -/
def release (s : Sentence) (stack : List Nat) (a : Arena) : EStateM.Result Failure Arena Unit :=
  match stack with
  | [] => .ok () a
  | index :: stack =>
    match _h : a.node? index with
    | some r => release s (r.kids.reverse ++ stack) (a.vacate s index r)
    | none => .error (.inconsistent s!"freeing tree node {index} twice") a
termination_by a.nodes.countP Option.isSome
decreasing_by exact countP_vacate_lt _h s

/-- Removes the node in a slot and all nodes below it. -/
def remove (s : Sentence) (index : Nat) : Routine Arena Unit := do
  let a ← get
  let r ← Routine.ofExcept (a.node index)
  match r.parent with
  | some parent =>
    let above ← Routine.ofExcept (a.node parent)
    match above.kids.findIdx? (· = index) with
    | some position => alter parent (·.forget position r.bound)
    | none => throw (.inconsistent s!"node {index} is not a child of its parent")
  | none => modify ({ · with root := none })
  release s [index]

/-- Forgets what was grafted and removed below the node in a slot. -/
def touch (index : Nat) : Routine Arena Unit :=
  alter index Record.touch

/-- Starts a cycle. -/
def beginCycle (a : Arena) : Arena :=
  { a with wasSubstantial := a.substantial, substantial := ∅ }

/-! ## Writing what was found -/

/-- Marks a node whose staged truth waits. -/
def await (a : Arena) (stage : Stage) (index : Nat) : Arena :=
  match stage with
  | .commit => a
  | .hold => { a with staged := a.staged.insert index }

/-- Writes findings to the nodes. What precedes a node that is not live stays written. -/
def apply (f : Findings) (stage : Stage) : Routine Arena Unit := do
  f.truths.forM fun (index, truth) => do
    alter index (·.write stage truth)
    modify (·.await stage index)
  f.branchTruths.forM fun (index, id, truth) =>
    alter index fun r => { r with branchTruths := r.branchTruths.insert id truth }
  f.links.forM fun (index, links) => alter index fun r => { r with links := some links }
  modify fun a => { a with substantial := a.substantial.insertMany f.substantial }

/-- Commits all truths that wait. -/
def commit : Routine Arena Unit := do
  let waiting := (← get).staged.toList
  modify ({ · with staged := ∅ })
  waiting.forM fun index => alter index Record.commit

/-! ## One context in the place of another -/

/-- Gives the truth of a branch to another context, in the node above. -/
def rebindAbove (parent bound : Option Nat) (new : Nat) : Routine Arena Unit :=
  match parent, bound with
  | some parent, some old => alter parent (·.rebindBranch old new)
  | _, _ => pure ()

/-- Binds a variable to another context in a branch of a quantifier. -/
def rebind (index : Nat) (var : String) (c : Context) : Routine Arena Unit := do
  let below ← Routine.ofExcept ((← get).subtree index)
  below.forM fun i => alter i (·.substitute var c)
  let r ← Routine.ofExcept ((← get).node index)
  alter index (·.bind c.id)
  rebindAbove r.parent r.bound c.id

/-- Renames the bindings of a variable in all links. -/
def renameLinks (a : Arena) (var : String) (old new : Nat) : Arena :=
  { a with nodes := a.nodes.map (·.map (·.renameLinks var old new)) }

end Arena

end RuleMonitor
