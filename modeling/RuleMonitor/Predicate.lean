import RuleMonitor.Formula.Basic
import RuleMonitor.Failure
import RuleMonitor.Script.Word
import RuleMonitor.Text.Blank
import RuleMonitor.Text.Numeral
import RuleMonitor.Text.Quoted

/-!
# Predicates

A predicate is a named test of the contexts in its positions. Most are registered under their name;
two families are found by the form of the name alone, `equal_const_a_v` comparing the attribute `a`
with the text `v` and `equal_a_b` comparing two attributes. A position, an attribute or a predicate
that is missing is an error of the predicate.

* `Arguments`: the contexts in their positions, with the look-ups that predicates are written with.
* `Registry.builtin`: the predicates that rules can count on.
* `Registry.eval`: an application in an environment.
-/

namespace RuleMonitor

open Std (ExtTreeMap)

/-! ## Arguments -/

/-- The contexts a predicate is applied to. -/
structure Arguments where
  /-- The name of the predicate. -/
  predicate : String
  /-- The contexts in their positions. -/
  params : List (String × Context)

namespace Arguments

/-- An error of the predicate. -/
def fault (name text : String) : Failure :=
  .of (.predicate name text)

/-- The context in a position. -/
def context (args : Arguments) (position : String) : Except Failure Context :=
  match args.params.find? fun p => p.1 = position with
  | some (_, c) => .ok c
  | none => .error (fault args.predicate s!"position `{position}` is unbound")

/-- An attribute of the context in a position. -/
def text (args : Arguments) (position name : String) : Except Failure String := do
  let c ← args.context position
  match c.attribute? name with
  | some value => .ok value
  | none => .error (fault args.predicate s!"context `{c.name}` has no attribute `{name}`")

/-- The integer in an attribute of the context in a position. -/
def number (args : Arguments) (position name : String) : Except Failure Int := do
  let value ← args.text position name
  match Text.integer? (Text.trimBlanks value.toList) with
  | some n => .ok n
  | none =>
    .error (fault args.predicate s!"attribute `{name}` of `{position}` is not a number: `{value}`")

end Arguments

/-- A test of the contexts it is applied to. -/
abbrev Predicate := Arguments → Except Failure Bool

/-! ## Predicates that rules can count on -/

namespace Predicate

/-- The attribute `state` is not `0`. -/
def notStill : Predicate := fun args => do
  return (← args.text "v1" "state") != "0"

/-- The first timestamp is the greater one. -/
def earlierThan : Predicate := fun args => do
  let first ← args.number "v1" "timestamp"
  let second ← args.number "v2" "timestamp"
  return first > second

/-- Both attributes `location` agree. -/
def sameLocation : Predicate := fun args => do
  let first ← args.text "v1" "location"
  let second ← args.text "v2" "location"
  return first == second

/-- The first timestamp follows the second by less than a hundred. The difference is one of 64 bits,
and crashes outside of them. -/
def sameTime : Predicate := fun args => do
  let first ← args.number "v1" "timestamp"
  let second ← args.number "v2" "timestamp"
  let difference := first - second
  if Text.isInt64 difference then
    return 0 < difference && difference < 100
  else
    throw (.crash (.text "attempt to subtract with overflow"))

/-- The attribute `prev` of the first is the attribute `location` of the second. -/
def previousLocation : Predicate := fun args => do
  let first ← args.text "v1" "prev"
  let second ← args.text "v2" "location"
  return first == second

end Predicate

/-! ## Families -/

/-- The predicates found by the form of their name. -/
inductive Family where
  /-- An attribute compared with a text. -/
  | equalConst (name value : String)
  /-- An attribute of the first context compared with one of the second. -/
  | equal (first second : String)
deriving DecidableEq, Repr

namespace Family

/-- The two parts of a name around its first underscore, neither of them empty. -/
def split? (cs : List Char) : Option (String × String) :=
  let first := cs.takeWhile (· ≠ '_')
  let second := (cs.dropWhile (· ≠ '_')).drop 1
  if first.isEmpty || second.isEmpty then none
  else some (String.ofList first, String.ofList second)

/-- The predicate that a name stands for. -/
def ofName? (name : String) : Option Family :=
  match Script.after? "equal_const_".toList name.toList with
  | some rest => (split? rest).map fun p => equalConst p.1 p.2
  | none => match Script.after? "equal_".toList name.toList with
    | some rest => (split? rest).map fun p => equal p.1 p.2
    | none => none

/-- The test of a predicate found by its name. -/
def test : Family → Predicate
  | equalConst name value, args => do return (← args.text "v1" name) == value
  | equal first second, args => do
    let a ← args.text "v1" first
    let b ← args.text "v2" second
    return a == b

end Family

/-! ## The registry -/

/-- The predicates known by name. -/
structure Registry where
  predicates : ExtTreeMap String Predicate := ∅

namespace Registry

/-- The registry with a predicate under a name, in the place of the one it had. -/
def register (r : Registry) (name : String) (p : Predicate) : Registry :=
  ⟨r.predicates.insert name p⟩

/-- The predicates that rules can count on. -/
def builtin : Registry :=
  ({} : Registry)
    |>.register "not_still" Predicate.notStill
    |>.register "earlier_than" Predicate.earlierThan
    |>.register "same_loc" Predicate.sameLocation
    |>.register "same_time" Predicate.sameTime
    |>.register "prev_location" Predicate.previousLocation

/-- The predicate of a name. -/
def find? (r : Registry) (name : String) : Option Predicate :=
  match r.predicates[name]? with
  | some p => some p
  | none => (Family.ofName? name).map Family.test

/-- The names registered, as a quoted listing. -/
def render (r : Registry) : String :=
  "PredRegistry " ++ Text.quoteNames r.predicates.keys

/-- The context of each parameter. -/
def resolve (name : String) (env : Env) (subst : Option Substitution) :
    List (String × String) → Except Failure (List (String × Context))
  | [] => .ok []
  | (position, var) :: rest =>
    match env.lookup subst var with
    | some c => do
      let contexts ← resolve name env subst rest
      return (position, c) :: contexts
    | none =>
      .error (Arguments.fault name s!"variable `{var}` of position `{position}` is unbound")

/-- The truth of an application. -/
def eval (r : Registry) (a : Application) (env : Env) (subst : Option Substitution) :
    Except Failure Bool := do
  let contexts ← resolve a.name env subst a.params
  match r.find? a.name with
  | some p => p ⟨a.name, contexts⟩
  | none => throw (Arguments.fault a.name "unknown predicate")

end Registry

end RuleMonitor
