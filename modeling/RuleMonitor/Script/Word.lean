import RuleMonitor.Text.Letter

/-!
# Words

Names are made of letters, digits and a few signs, and do not start with a digit. The words that
formulas and items are written with cannot be names.

* `isNameChar`, `isNameStart`: the characters of names.
* `isKeyword`: the words that are no names.
* `after?`: what remains of a text that starts with another one.
-/

namespace RuleMonitor.Script

/-- The signs that names may hold. -/
def nameSigns : List Char :=
  ['_', '-', '.', '\'', '#', '@', '$', '!', '?', '/']

/-- A character of a name. -/
def isNameChar (c : Char) : Bool :=
  Text.isAlphanumeric c || nameSigns.contains c

/-- A character that a name can start with. -/
def isNameStart (c : Char) : Bool :=
  Text.isLetter c || nameSigns.contains c

/-- The words that are no names. -/
def keywords : List String :=
  ["forall", "exists", "and", "or", "implies", "not", "bfunc", "pattern", "rule", "critical", "check"]

/-- A word that is no name. -/
def isKeyword (word : String) : Bool :=
  keywords.contains word

/-- What remains of a text that starts with another one. -/
def after? : (start text : List Char) → Option (List Char)
  | [], cs => some cs
  | _ :: _, [] => none
  | s :: start, c :: cs => if s = c then after? start cs else none

theorem after?_append (start cs : List Char) : after? start (start ++ cs) = some cs := by
  induction start with
  | nil => rfl
  | cons s start ih => simp [after?, ih]

theorem eq_append_of_after? {start text cs : List Char} (h : after? start text = some cs) :
    text = start ++ cs := by
  induction start generalizing text with
  | nil => simpa [after?] using h
  | cons s start ih =>
    cases text with
    | nil => simp [after?] at h
    | cons c text =>
      simp only [after?] at h
      split at h
      · next hs => simp [hs, ih h]
      · simp at h

end RuleMonitor.Script
