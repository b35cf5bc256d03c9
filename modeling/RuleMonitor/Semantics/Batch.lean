import RuleMonitor.FactStore

/-!
# Batches on pools

A change is valid on pools if it adds a context whose identity is not live, or deletes or updates one
whose identity is. A batch is valid if each of its changes is, after the changes before it.

* `Change.isValid`: a change fits the pools.
* `Pools.after?`: the pools after a batch that is valid.
-/

namespace RuleMonitor

/-- The change fits the pools. -/
def Change.isValid (c : Change) (pools : Pools) : Bool :=
  let live := (pools.pool c.pattern).contains c.id
  match c.kind with
  | .addition => !live
  | .deletion | .update => live

namespace Pools

/-- The pools after a change. -/
def step (pools : Pools) (c : Change) : Pools :=
  let pool := pools.pool c.pattern
  pools.insert c.pattern <|
    match c.kind with
    | .addition | .update => pool.insert c.id c.context
    | .deletion => pool.erase c.id

/-- The pools after the changes of a batch in order, if each is valid. -/
def after? (pools : Pools) : List Change → Option Pools
  | [] => some pools
  | c :: rest => if c.isValid pools then (pools.step c).after? rest else none

end Pools

end RuleMonitor
