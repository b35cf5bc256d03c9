import RuleMonitor.Failure
import RuleMonitor.Text.Numeral
import Std.Data.ExtTreeMap

/-!
# Profiles

A profile tells how long the parts of the work took. Parts have names, and may have parts of their
own; a part without a duration takes as long as its parts together. Besides durations a profile has
counters.

* `Duration`: a time span of seconds and nanoseconds, limited to 64 bits of seconds.
* `ProfileTree.entries`: the parts in order, with their durations and those of their parts.
* `Profiler`: durations taken between two readings of a clock that advances at each reading.
-/

namespace RuleMonitor

open Std (ExtTreeMap)

/-! ## Durations -/

/-- A time span in nanoseconds. -/
structure Duration where
  nanos : Nat
deriving DecidableEq, Repr

namespace Duration

/-- The nanoseconds of a second. -/
def perSecond : Nat := 1000000000

/-- A time span, if its seconds fit in 64 bits. -/
def checked (nanos : Nat) : Except Failure Duration :=
  if nanos / perSecond < Text.wordBound then .ok ⟨nanos⟩
  else .error (.crash (.text "the duration is too long"))

/-- Seconds and nanoseconds. -/
def of (seconds nanos : Nat) : Except Failure Duration :=
  checked (seconds * perSecond + nanos)

/-- The sum of two time spans. -/
def add (a b : Duration) : Except Failure Duration :=
  checked (a.nanos + b.nanos)

/-- The seconds, a point, and nine digits. -/
def render (d : Duration) : String :=
  let digits := toString (d.nanos % perSecond)
  s!"{d.nanos / perSecond}." ++ "".pushn '0' (9 - digits.length) ++ digits

end Duration

/-! ## Parts -/

mutual

/-- A part of the work with its parts. -/
inductive ProfileTree where
  | node (duration : Option Duration) (parts : ProfileParts)

/-- Parts of a part, in the order of their names. -/
inductive ProfileParts where
  | nil
  | cons (name : String) (part : ProfileTree) (rest : ProfileParts)

end

/-- A part with its durations. -/
structure ProfileEntry where
  /-- The names that lead to the part. -/
  scope : List String
  time : Duration
  /-- The duration of its parts together. -/
  inner : Duration
deriving DecidableEq, Repr

/-- A profile without parts. -/
def ProfileTree.top (duration : Option Duration) : ProfileTree :=
  .node duration .nil

mutual

/-- The profile with a duration for the part that some names lead to. -/
def ProfileTree.insert (t : ProfileTree) (scope : List String) (duration : Duration) :
    ProfileTree :=
  match scope, t with
  | [], .node _ parts => .node (some duration) parts
  | name :: scope, .node own parts => .node own (ProfileParts.insert parts name scope duration)
termination_by (scope.length, 0)

/-- The parts with a duration for the part that some names lead to. -/
def ProfileParts.insert (parts : ProfileParts) (name : String) (scope : List String)
    (duration : Duration) : ProfileParts :=
  match parts with
  | .nil => .cons name ((ProfileTree.top none).insert scope duration) .nil
  | .cons other part rest =>
    if name < other then
      .cons name ((ProfileTree.top none).insert scope duration) (.cons other part rest)
    else if name = other then .cons other (part.insert scope duration) rest
    else .cons other part (ProfileParts.insert rest name scope duration)
termination_by (scope.length, sizeOf parts)

end

mutual

/-- The duration of a part, from its parts if it has none of its own. -/
def ProfileTree.time : ProfileTree → Except Failure Duration
  | .node (some duration) _ => .ok duration
  | .node none parts => parts.time ⟨0⟩

/-- The sum of a duration and those of parts. -/
def ProfileParts.time (parts : ProfileParts) (sum : Duration) : Except Failure Duration :=
  match parts with
  | .nil => .ok sum
  | .cons _ part rest => do rest.time (← sum.add (← part.time))

end

/-- The duration of the parts of a part. -/
def ProfileTree.inner : ProfileTree → Except Failure Duration
  | .node _ parts => parts.time ⟨0⟩

mutual

/-- The parts of a part in order, below a scope. -/
def ProfileTree.entriesBelow (scope : List String) : ProfileTree → Except Failure (List ProfileEntry)
  | .node _ parts => parts.entriesBelow scope

/-- Parts in order, below a scope. -/
def ProfileParts.entriesBelow (scope : List String) :
    ProfileParts → Except Failure (List ProfileEntry)
  | .nil => .ok []
  | .cons name part rest => do
    let own := scope ++ [name]
    let inner ← part.inner
    let time ← part.time
    let below ← part.entriesBelow own
    let more ← rest.entriesBelow scope
    return ⟨own, time, inner⟩ :: below ++ more

end

/-- All parts in order, the whole first. -/
def ProfileTree.entries (t : ProfileTree) : Except Failure (List ProfileEntry) := do
  let time ← t.time
  let inner ← t.inner
  let below ← t.entriesBelow []
  return ⟨[], time, inner⟩ :: below

/-- The line of a part. -/
def ProfileEntry.render (e : ProfileEntry) : String :=
  let inner := if e.inner.nanos = 0 then "" else s!" ({e.inner.render}s)"
  match e.scope.getLast? with
  | some name => "; " ++ spaces (2 * e.scope.length) ++ s!"|- {e.time.render}s {name}{inner}\n"
  | none => s!"; total {e.time.render}s{inner}\n"

/-- The lines of a profile. -/
def ProfileTree.render (t : ProfileTree) : Except Failure String := do
  return String.join ((← t.entries).map ProfileEntry.render)

/-! ## Counters -/

/-- Named counters. -/
abbrev Counters := ExtTreeMap String Nat

namespace Counters

/-- The counters with one of them increased. -/
def count (c : Counters) (name : String) (n : Nat) : Counters :=
  c.insert name (c.getD name 0 + n)

/-- The line of a counter: the name is aligned to the right of thirty columns, the number to the
right of five. -/
def renderLine (name : String) (n : Nat) : String :=
  let digits := toString n
  ";   " ++ spaces (30 - name.utf8ByteSize) ++ name ++ ": " ++ spaces (5 - digits.length) ++
    digits ++ "\n"

/-- The lines of counters. -/
def render (c : Counters) : String :=
  String.join (c.toList.map fun e => renderLine e.1 e.2)

end Counters

/-! ## Profilers -/

/-- The block of a profile: a title, the parts, and the counters if there are any. -/
def renderProfile (title : String) (tree : ProfileTree) (counters : Counters) :
    Except Failure String := do
  let parts ← tree.render
  let stats := if counters.isEmpty then "" else "; |\n; | stats:\n" ++ counters.render
  return s!"; |===| {title} profiling:\n" ++ parts ++ stats ++ "; |===|\n"

/-- The time taken for a part. -/
structure Stopwatch where
  /-- The reading of the clock since which time is taken. -/
  since : Option Nat := none
  /-- The time taken before. -/
  sum : Nat := 0
deriving DecidableEq, Repr

/-- Durations of parts by their scopes, and counters. -/
structure Profiler where
  /-- The clock, in nanoseconds. -/
  now : Nat := 0
  watches : ExtTreeMap (List String) Stopwatch := ∅
  counters : Counters := ∅

namespace Profiler

/-- The whole cannot be timed. -/
def checkScope (scope : List String) : Routine Profiler Unit :=
  if scope.isEmpty then throw (.crash (.text "the whole cannot be timed")) else pure ()

/-- Starts taking the time of a part. -/
def tick (scope : List String) : Routine Profiler Unit := do
  checkScope scope
  modify fun p =>
    let watch := p.watches.getD scope {}
    { p with
      now := p.now + 1
      watches := p.watches.insert scope { watch with since := some (p.now + 1) } }

/-- Adds the time since the part was started. -/
def mark (scope : List String) : Routine Profiler Unit := do
  checkScope scope
  let p ← get
  match p.watches[scope]? with
  | none =>
    throw (.crash (.text "the part was never started"))
  | some watch =>
    let elapsed := match watch.since with
      | some since => p.now + 1 - since
      | none => 0
    set { p with
      now := p.now + 1
      watches := p.watches.insert scope { since := none, sum := watch.sum + elapsed } }

/-- Increases a counter, which is one of 64 bits. -/
def count (name : String) (n : Nat) : Routine Profiler Unit := do
  let p ← get
  let counters := p.counters.count name n
  if Text.wordBound ≤ counters.getD name 0 then throw (.crash (.text "the counter is too large"))
  set { p with counters }

/-- The profile of the parts timed, the whole being the reading of the clock. -/
def tree (p : Profiler) : ProfileTree :=
  p.watches.toList.foldl (fun t e => t.insert e.1 ⟨e.2.sum⟩) (.top (some ⟨p.now⟩))

/-- The block of the profile. -/
def render (p : Profiler) (title : String) : Except Failure String :=
  renderProfile title p.tree p.counters

end Profiler

end RuleMonitor
