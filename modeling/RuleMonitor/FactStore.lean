import RuleMonitor.Context
import RuleMonitor.Failure

/-!
# The fact store of a rule

For each pattern the store holds the pool of its live contexts, and for the current cycle the delta
that separates the pool from what it was. Within a delta, an addition and a deletion of the same
context cancel out, a deletion and an addition make an update, and an update of what was added stays
an addition.

* `FactStore.apply`: one change on the pools alone. A change that does not fit the pool fails; what
  was written for an addition that fails stays written.
* `FactStore.applyBatch`: changes in order, on the pools and the deltas.
* `FactStore.swap`: one context in the place of another, without a delta.
-/

namespace RuleMonitor

open Std (ExtTreeMap)

/-- The live contexts of a pattern by identity. -/
abbrev Pool := ExtTreeMap Nat Context

/-- What happened to a pattern during a cycle. -/
structure Delta where
  /-- The contexts added. -/
  added : Pool := ∅
  /-- The contexts deleted, with the value before the cycle. -/
  deleted : Pool := ∅
  /-- The contexts updated, with the values before and after. -/
  updated : ExtTreeMap Nat (Context × Context) := ∅
deriving DecidableEq

namespace Delta

/-- Nothing happened. -/
def isEmpty (d : Delta) : Bool :=
  d.added.isEmpty && d.deleted.isEmpty && d.updated.isEmpty

/-- The delta after one more addition. -/
def addition (d : Delta) (c : Context) : Delta :=
  match d.deleted[c.id]? with
  | some before =>
    { d with deleted := d.deleted.erase c.id, updated := d.updated.insert c.id (before, c) }
  | none => { d with added := d.added.insert c.id c }

/-- The delta after one more deletion, of the context that had the value `old`. -/
def deletion (d : Delta) (old : Context) : Delta :=
  let id := old.id
  if d.added.contains id then { d with added := d.added.erase id }
  else match d.updated[id]? with
    | some (before, _) =>
      { d with updated := d.updated.erase id, deleted := d.deleted.insert id before }
    | none => { d with deleted := d.deleted.insert id old }

/-- The delta after one more update, of the context that had the value `old`. -/
def update (d : Delta) (old new : Context) : Delta :=
  let id := new.id
  if d.added.contains id then { d with added := d.added.insert id new }
  else match d.updated[id]? with
    | some (before, _) => { d with updated := d.updated.insert id (before, new) }
    | none => { d with updated := d.updated.insert id (old, new) }

/-- The delta after one more change of a context that had the value `old`. -/
def record (d : Delta) (change : Change) (old : Context) : Delta :=
  match change.kind with
  | .addition => d.addition change.context
  | .deletion => d.deletion old
  | .update => d.update old change.context

end Delta

/-- The pools of all patterns. -/
abbrev Pools := ExtTreeMap String Pool

namespace Pools

/-- The pool of a pattern. -/
def pool (p : Pools) (pattern : String) : Pool :=
  p.getD pattern ∅

/-- The live contexts of a pattern in the order of their identities. -/
def domain (p : Pools) (pattern : String) : List Context :=
  (p.pool pattern).values

end Pools

/-- The live contexts of each pattern, and the deltas of the current cycle. -/
structure FactStore where
  pools : Pools := ∅
  deltas : ExtTreeMap String Delta := ∅
deriving DecidableEq

namespace FactStore

/-- The pool of a pattern. -/
def pool (s : FactStore) (pattern : String) : Pool :=
  s.pools.pool pattern

/-- The live contexts of a pattern in the order of their identities. -/
def domain (s : FactStore) (pattern : String) : List Context :=
  s.pools.domain pattern

/-- A live context. -/
def get? (s : FactStore) (pattern : String) (id : Nat) : Option Context :=
  (s.pool pattern)[id]?

/-- A context is live. -/
def contains (s : FactStore) (pattern : String) (id : Nat) : Bool :=
  (s.pool pattern).contains id

/-- The delta of a pattern, if it has one in this cycle. -/
def delta? (s : FactStore) (pattern : String) : Option Delta :=
  s.deltas[pattern]?

/-- The delta of a pattern. -/
def delta (s : FactStore) (pattern : String) : Delta :=
  s.deltas.getD pattern {}

/-- Some pattern changed in this cycle. -/
def hasDeltas (s : FactStore) : Bool :=
  s.deltas.values.any fun d => !d.isEmpty

/-- The store at the start of a cycle. -/
def clearDeltas (s : FactStore) : FactStore :=
  { s with deltas := ∅ }

/-- The store with another pool for a pattern. -/
def setPool (s : FactStore) (pattern : String) (pool : Pool) : FactStore :=
  { s with pools := s.pools.insert pattern pool }

/-- The store with another delta for a pattern. -/
def setDelta (s : FactStore) (pattern : String) (delta : Delta) : FactStore :=
  { s with deltas := s.deltas.insert pattern delta }

/-- Applies one change to the pools. -/
def apply (change : Change) : Routine FactStore Unit := do
  let s ← get
  let pattern := change.pattern
  let pool := s.pool pattern
  let live := pool.contains change.id
  match change.kind with
  | .addition =>
    set (s.setPool pattern (pool.insert change.id change.context))
    if live then
      throw (.inconsistent s!"adding context `{change.context.name}` to `{pattern}` twice")
  | .deletion =>
    if live then set (s.setPool pattern (pool.erase change.id))
    else throw (.inconsistent s!"deleting context `{change.context.name}` absent from `{pattern}`")
  | .update =>
    if live then set (s.setPool pattern (pool.insert change.id change.context))
    else throw (.inconsistent s!"updating context `{change.context.name}` absent from `{pattern}`")

/-- Applies one change to the pools and to the delta of its pattern. -/
def applyRecorded (change : Change) : Routine FactStore Unit := do
  let old := ((← get).get? change.pattern change.id).getD change.context
  apply change
  modify fun s => s.setDelta change.pattern ((s.delta change.pattern).record change old)

/-- Applies changes in order to the pools and the deltas. -/
def applyBatch : List Change → Routine FactStore Unit
  | [] => pure ()
  | change :: rest => do
    applyRecorded change
    applyBatch rest

/-- Puts `new` in the place of the live context `old`. -/
def swap (pattern : String) (old : Nat) (new : Context) : Routine FactStore Unit := do
  let s ← get
  let pool := s.pool pattern
  if pool.contains old then
    let rest := pool.erase old
    set (s.setPool pattern (rest.insert new.id new))
    if rest.contains new.id then
      throw (.inconsistent s!"swapping in context #{new.id} already live in `{pattern}`")
  else
    throw (.inconsistent s!"swapping context #{old} absent from `{pattern}`")

end FactStore

end RuleMonitor
