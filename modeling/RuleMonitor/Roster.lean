import RuleMonitor.Context
import RuleMonitor.Failure

/-!
# The roster of live contexts

The roster gives out identities, keeps the live contexts of all patterns, and finds them by name.
It is where changes come from: each operation that succeeds answers the change to be scheduled, and
one that fails leaves the roster as it was. Names are unique among the live contexts and cannot be
changed; identities are never given out again.

* `Roster.add`, `Roster.remove`, `Roster.update`: the operations.
* `Roster.snapshot`: the additions that make all live contexts.
-/

namespace RuleMonitor

open Std (ExtTreeMap)

/-- The live contexts of all patterns. -/
structure Roster where
  /-- The next identity to be given out. -/
  next : Nat := 0
  /-- The live contexts with their patterns. -/
  live : ExtTreeMap Nat (String × Context) := ∅
  /-- The names of live contexts. -/
  names : ExtTreeMap String Nat := ∅
deriving DecidableEq

namespace Roster

/-- The number of live contexts. -/
def size (r : Roster) : Nat :=
  r.live.size

/-- The identity of the live context with a name. -/
def byName? (r : Roster) (name : String) : Option Nat :=
  r.names[name]?

/-- The pattern of a live context. -/
def patternOf? (r : Roster) (id : Nat) : Option String :=
  (r.live[id]?).map (·.1)

/-- A live context. -/
def get? (r : Roster) (id : Nat) : Option Context :=
  (r.live[id]?).map (·.2)

/-- The identities of the live contexts of a pattern, in order. -/
def liveIds (r : Roster) (pattern : String) : List Nat :=
  (r.live.toList.filter fun entry => entry.2.1 = pattern).map (·.1)

/-- The additions that make all live contexts, in the order of their identities. -/
def snapshot (r : Roster) : List Change :=
  r.live.values.map fun entry => ⟨.addition, entry.1, entry.2⟩

/-- Creates a context. -/
def add (pattern : String) (attributes : Attributes) : Routine Roster Change := do
  let r ← get
  let c : Context := ⟨r.next, attributes⟩
  let live := r.live.insert r.next (pattern, c)
  match c.attribute? "name" with
  | some name =>
    if r.names.contains name then
      throw (.of (.plain s!"a live context is already called `{name}`"))
    set { next := r.next + 1, live, names := r.names.insert name r.next : Roster }
  | none => set { r with next := r.next + 1, live }
  return ⟨.addition, pattern, c⟩

/-- Removes a live context. -/
def remove (id : Nat) : Routine Roster Change := do
  let r ← get
  match r.live[id]? with
  | none => throw (.of (.plain s!"cannot remove unknown context #{id}"))
  | some (pattern, c) =>
    let names := match c.attribute? "name" with
      | some name => r.names.erase name
      | none => r.names
    set { r with live := r.live.erase id, names }
    return ⟨.deletion, pattern, c⟩

/-- Some attributes would give the context another name. -/
def renames (c : Context) (attributes : Attributes) : Bool :=
  match attributes["name"]? with
  | some name => c.attribute? "name" ≠ some name
  | none => false

/-- Overwrites some attributes of a live context. -/
def update (id : Nat) (attributes : Attributes) : Routine Roster Change := do
  let r ← get
  match r.live[id]? with
  | none => throw (.of (.plain s!"cannot update unknown context #{id}"))
  | some (pattern, c) =>
    if renames c attributes then
      throw (.of (.plain s!"cannot rename context `{c.name}`"))
    let new := attributes.toList.foldl (fun c entry => c.withAttribute entry.1 entry.2) c
    set { r with live := r.live.insert id (pattern, new) }
    return ⟨.update, pattern, new⟩

end Roster

end RuleMonitor
