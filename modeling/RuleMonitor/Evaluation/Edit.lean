import RuleMonitor.Evaluation.Full

/-!
# Edits of an instantiation

The deltas of a cycle call for edits of the instantiation: a quantifier over a pattern that changed
loses the branches of contexts that were deleted or updated, and gains branches for the new values.
Edits are planned without changing anything, and then applied in order.

* `Setting.branchOf`: the branch of a quantifier for a context.
* `Setting.plan`: the edits that the deltas call for.
* `Tree.edit`: one edit applied.
-/

namespace RuleMonitor

/-- A change of the structure of an instantiation, at a node with some lineage. -/
inductive Edit where
  /-- Forgets what was grafted and removed below a node. -/
  | touch (lineage : List Nat)
  /-- Removes a branch. -/
  | remove (lineage : List Nat)
  /-- Grafts a branch as the last one of a node. -/
  | graft (lineage : List Nat) (branch : Fragment)

/-- The slot of the node. -/
def Edit.index : Edit → Nat
  | touch lineage | remove lineage | graft lineage _ => lineage.headD 0

namespace Tree

/-- Applies an edit. -/
def edit (s : Sentence) : Edit → Routine Tree Unit
  | .touch lineage => changeAt lineage Node.touch
  | .remove lineage => removeAt lineage
  | .graft lineage branch => do let _ ← graftAt s (some lineage) branch

/-- Applies edits in order. -/
def editAll (s : Sentence) : List Edit → Routine Tree Unit
  | [] => pure ()
  | e :: es => do
    edit s e
    editAll s es

end Tree

namespace Setting

/-- The branches of a quantifier where its variable is bound to a context. -/
def branchesOf (q : Quantifier) (kids : List Node) (c : Context) : List Node :=
  kids.filter fun kid =>
    match kid.cell.env[q.var]? with
    | some bound => bound.id = c.id
    | none => false

/-- The branch of a quantifier for a context. There has to be exactly one if the quantifier admits
the context, and none otherwise. -/
def branchOf (q : Quantifier) (n : Node) (c : Context) : Except Failure (Option Node) :=
  match q.admits n.cell.env c, branchesOf q n.kids c with
  | true, [kid] => .ok (some kid)
  | false, [] => .ok none
  | admitted, found =>
    let expected := if admitted then 1 else 0
    .error (.inconsistent (s!"{found.length} child(ren) of node {n.index} bind `{q.var}` to " ++
      s!"`{c.name}`, expected {expected}"))

/-- The slots of the branches for contexts whose former values are given. -/
def branchesFor (q : Quantifier) (n : Node) : List Context → Except Failure (List Nat)
  | [] => .ok []
  | c :: rest => do
    let branch ← branchOf q n c
    let more ← branchesFor q n rest
    return match branch with
      | some kid => kid.index :: more
      | none => more

/-- The former values of the contexts that were deleted or updated. -/
def formerContexts (delta : Delta) : List Context :=
  delta.deleted.values ++ delta.updated.values.map (·.1)

/-- The new values of the contexts that were updated or added. -/
def newContexts (delta : Delta) : List Context :=
  delta.updated.values.map (·.2) ++ delta.added.values

/-- The edits for a node and the nodes below it; `above` is the lineage of the node above it. -/
def planNode (s : Setting) : Formula → (above : List Nat) → Node → Eval (List Edit)
  | f@(.quantified i q body), above, n@(.mk c kids) => do
    if !s.focus.affects f then return []
    let lineage := c.index :: above
    let delta := s.facts.delta q.pattern
    let removed ← Routine.ofExcept (branchesFor q n (formerContexts delta))
    let inner ←
      if s.focus.affects body then
        s.forBranches i (planNode s body lineage)
          (kids.filter fun kid => !removed.contains kid.index)
      else pure []
    let admitted := (newContexts delta).filter fun new => q.admits c.env new
    let branch (new : Context) : Eval Fragment :=
      s.instantiate body (q.bind c.env new) (some new.id)
    let branches ← s.forBranches i branch admitted
    return .touch lineage :: removed.map (fun slot => .remove (slot :: lineage)) ++
      inner.flatten ++ branches.map (.graft lineage)
  | f@(.binary _ _ left right), above, .mk c kids => do
    if !s.focus.affects f then return []
    match kids with
    | [a, b] =>
      let l ← planNode s left (c.index :: above) a
      let r ← planNode s right (c.index :: above) b
      return l ++ r
    | _ => return []
  | f@(.negation _ body), above, .mk c kids => do
    if !s.focus.affects f then return []
    match kids with
    | [a] => planNode s body (c.index :: above) a
    | _ => return []
  | .application .., _, _ => return []

/-- The edits that the deltas call for. -/
def plan (s : Setting) (t : Tree) : Eval (List Edit) :=
  match t.root with
  | some root => s.planNode s.sentence.formula [] root
  | none => pure []

end Setting

end RuleMonitor
