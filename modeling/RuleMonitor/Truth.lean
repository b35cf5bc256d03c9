/-!
# Truth

Nodes of an instantiation are true, false, or not evaluated yet.

* `Truth.ofBool`, `Truth.toBool?`: the known values.
-/

namespace RuleMonitor

/-- A truth that may be unknown. The constructors stand in the order in which truths are listed. -/
inductive Truth where
  | yes
  | no
  | unknown
deriving DecidableEq, Repr

namespace Truth

/-- A known truth. -/
def ofBool (b : Bool) : Truth :=
  if b then yes else no

/-- The value, if known. -/
def toBool? : Truth → Option Bool
  | yes => some true
  | no => some false
  | unknown => none

/-- The word for a truth. -/
def word : Truth → String
  | yes => "true"
  | no => "false"
  | unknown => "unknown"

@[simp] theorem toBool?_ofBool (b : Bool) : (ofBool b).toBool? = some b := by cases b <;> rfl

theorem eq_false_of_ofBool {b : Bool} (h : ofBool b = no) : b = false := by
  cases b with
  | false => rfl
  | true => cases h

end Truth

end RuleMonitor
