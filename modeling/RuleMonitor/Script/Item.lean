import RuleMonitor.Formula.Sentence
import RuleMonitor.Roster
import RuleMonitor.Script.Cursor

/-!
# Items

A script is a sequence of items in parentheses: declarations of patterns and rules, changes of
contexts, lists of critical contexts, and checks. Reading an item has effects on what is declared and
on the roster of live contexts, which stay when a later part of the script cannot be read; and so do
the items before it.

* `Item`: what a script asks for.
* `Parser.formula`, `Parser.change`, …: the parts of items.
* `Parser.items`, `Declarations.parse`: all items of a text.
-/

namespace RuleMonitor

open Std (ExtTreeMap)

/-- What an item of a script asks for. -/
inductive Item where
  /-- A rule to be monitored. -/
  | rule (s : Sentence)
  /-- A change of the stream. -/
  | change (c : Change)
  /-- Contexts that are never merged. -/
  | critical (ids : List Nat)
  /-- A report on all rules. -/
  | check
deriving DecidableEq

/-- What scripts declared so far. -/
structure Declarations where
  /-- The patterns with their attributes. -/
  patterns : ExtTreeMap String (List String) := ∅
  /-- The live contexts. -/
  roster : Roster := {}
deriving DecidableEq

/-- A script that is being read. -/
structure Parser where
  declarations : Declarations
  cursor : Cursor
  /-- The rule that is being read. -/
  draft : Draft := { rule := "" }
  /-- The items read, in order. -/
  items : List Item := []
deriving DecidableEq

namespace Parser

/-- Moves the cursor. -/
def read {α : Type} (x : Routine Cursor α) : Routine Parser α :=
  Routine.onPart Parser.cursor (fun cursor p => { p with cursor }) x

/-- Works on the roster. -/
def onRoster {α : Type} (x : Routine Roster α) : Routine Parser α :=
  Routine.onPart (·.declarations.roster)
    (fun roster p => { p with declarations := { p.declarations with roster } }) x

/-- Works on the rule that is being read. -/
def onDraft {α : Type} (x : Routine Draft α) : Routine Parser α :=
  Routine.onPart Parser.draft (fun draft p => { p with draft }) x

/-- The place of the cursor. -/
def position : Routine Parser Nat := do
  return (← get).cursor.position

/-- Enough fuel for a loop that moves the cursor in each round. -/
def fuel : Routine Parser Nat := do
  return (← get).cursor.rest.length + 1

/-- Fails at a position. -/
def failAt {α : Type} (position : Nat) (message : String) : Routine Parser α :=
  read (Cursor.failAt position message)

/-- Fails by an error that is explained by another one, at a position. -/
def failWithin {α : Type} (position : Nat) (message : String) : Failure → Routine Parser α
  | .crash c => throw (.crash c)
  | .error e => do
    match (← get).cursor.errorAt position message with
    | .error outer => throw (.error (e.within outer.kind))
    | .crash c => throw (.crash c)

/-- Moves past blanks and comments. -/
def skip : Routine Parser Unit :=
  read Cursor.skip

/-- Moves past a closing parenthesis, and the blanks before it. -/
def close : Routine Parser Unit := do
  skip
  read (Cursor.tag ")")

/-- Reads a name after blanks. -/
def nextName : Routine Parser (Nat × String) := do
  skip
  read Cursor.name

/-- Reads a value after blanks. -/
def nextValue : Routine Parser (Nat × String) := do
  skip
  read Cursor.value

/-! ## Parts of items -/

/-- Reads a declared pattern after blanks. -/
def pattern : Routine Parser String := do
  let (position, name) ← nextName
  if !(← get).declarations.patterns.contains name then
    failAt position s!"unknown pattern `{name}`"
  return name

/-- Reads the name of a live context, of a given pattern if there is one. -/
def live (pattern : Option String) : Routine Parser Nat := do
  let (position, name) ← read Cursor.value
  let roster := (← get).declarations.roster
  match roster.byName? name with
  | none => failAt position s!"unknown context `{name}`"
  | some id =>
    match pattern with
    | some p =>
      if roster.patternOf? id ≠ some p then
        failAt position s!"context `{name}` is not a `{p}`"
    | none => pure ()
    return id

/-- Reads attributes with their values, each pair in parentheses. -/
def attributesFrom : (fuel : Nat) → Attributes → Routine Parser Attributes
  | 0, attributes => return attributes
  | fuel + 1, attributes => do
    if !(← read (Cursor.tag? "(")) then return attributes
    let (position, name) ← nextName
    let (_, value) ← nextValue
    close
    skip
    if name = "name" then
      failAt position "contexts are named by their second argument"
    if attributes.contains name then
      failAt position s!"attribute `{name}` given twice"
    attributesFrom fuel (attributes.insert name value)

/-- Reads attributes with their values after blanks. -/
def attributes : Routine Parser Attributes := do
  skip
  attributesFrom (← fuel) ∅

/-- Reads names, each followed by blanks. -/
def namesFrom : (fuel : Nat) → List String → Routine Parser (List String)
  | 0, names => return names
  | fuel + 1, names => do
    match ← read Cursor.name? with
    | none => return names
    | some (_, name) =>
      skip
      namesFrom fuel (names ++ [name])

/-! ## Formulas -/

/-- Reads parameters of a predicate, each pair of a position and a variable in parentheses. -/
def paramsFrom : (fuel : Nat) → List (String × String) → Routine Parser (List (String × String))
  | 0, params => return params
  | fuel + 1, params => do
    if !(← read (Cursor.tag? "(")) then return params
    let (_, position) ← nextValue
    let (_, var) ← nextName
    close
    skip
    paramsFrom fuel (params ++ [(position, var)])

/-- Reads a predicate application after its keyword. -/
def application : Routine Parser Nat := do
  let (_, name) ← nextName
  skip
  let params ← paramsFrom (← fuel) []
  onDraft (Draft.pushApplication name params)

/-- What stands between the pattern of a quantifier and its body. -/
structure Marks where
  /-- A filter: its position, its name, and the variable it depends on. -/
  filter : Option (Nat × String × String) := none
  disabled : List Repair := []

/-- The marks that rule out repairs. -/
def repairMarks : List (String × List Repair) :=
  [(":non-addable", [.addition]), (":non-removable", [.removal]), (":non-updatable", [.update]),
    (":immutable", [.addition, .removal, .update])]

/-- Reads a mark that rules out repairs, if one comes next. -/
def repairMark : List (String × List Repair) → Routine Parser (Option (List Repair))
  | [] => return none
  | (word, repairs) :: rest => do
    if ← read (Cursor.word? word) then return some repairs
    repairMark rest

/-- Reads the marks of a quantifier. The last filter counts. -/
def marksFrom : (fuel : Nat) → Marks → Routine Parser Marks
  | 0, marks => return marks
  | fuel + 1, marks => do
    skip
    let position ← position
    if ← read (Cursor.word? ":filter") then
      let (_, name) ← nextName
      let (_, dep) ← nextName
      marksFrom fuel { marks with filter := some (position, name, dep) }
    else
      match ← repairMark repairMarks with
      | some repairs => marksFrom fuel { marks with disabled := marks.disabled ++ repairs }
      | none =>
        if (← get).cursor.peek? = some ':' then
          failAt position "unknown quantifier attribute"
        return marks

/-- Gives a quantifier what its marks say. -/
def mark (node : Nat) (pattern : String) (marks : Marks) : Routine Parser Unit := do
  match marks.filter with
  | some (position, name, dep) =>
    match ← Routine.attempt (onDraft (Draft.restrict node name dep)) with
    | .ok _ => pure ()
    | .error e => failWithin position "in this filter" e
  | none => pure ()
  marks.disabled.forM fun repair => onDraft (Draft.disable node repair pattern)

/-- Reads a quantifier after its keyword; `body` reads the formula in it. -/
def quantifier (kind : QuantifierKind) (body : Routine Parser Nat) : Routine Parser Nat := do
  let (_, var) ← nextName
  let pattern ← pattern
  let marks ← marksFrom (← fuel) {}
  let sub ← body
  let node ← onDraft (Draft.pushQuantifier kind var pattern sub)
  mark node pattern marks
  return node

/-- Reads the operands of a connective after its keyword; `operand` reads one of them. -/
def binary (op : Connective) (operand : Routine Parser Nat) : Routine Parser Nat := do
  skip
  let left ← operand
  skip
  let right ← operand
  onDraft (Draft.push (.binary op left right))

/-- Reads the operand of a negation after its keyword. -/
def negation (operand : Routine Parser Nat) : Routine Parser Nat := do
  skip
  let body ← operand
  onDraft (Draft.push (.negation body))

/-- Reads what stands between the parentheses of a formula. -/
def connective (formula : Routine Parser Nat) : Routine Parser Nat := do
  let start ← position
  if ← read (Cursor.word? "forall") then quantifier .universal formula
  else if ← read (Cursor.word? "exists") then quantifier .existential formula
  else if ← read (Cursor.word? "not") then negation formula
  else if ← read (Cursor.word? "bfunc") then application
  else if ← read (Cursor.word? "and") then binary .and formula
  else if ← read (Cursor.word? "or") then binary .or formula
  else if ← read (Cursor.word? "implies") then binary .implies formula
  else failAt start "expected a formula"

/-- Reads a formula, and answers its node in the draft. Formulas are not nested deeper than the
fuel. -/
def formula : (fuel : Nat) → Routine Parser Nat
  | 0 => throw (.crash .silent)
  | fuel + 1 => do
    read (Cursor.tag "(")
    skip
    let node ← connective (formula fuel)
    close
    return node

/-! ## Items -/

/-- Reads the declaration of a pattern after its keyword. -/
def patternDeclaration : Routine Parser Unit := do
  let (position, name) ← nextName
  if (← get).declarations.patterns.contains name then
    failAt position s!"pattern `{name}` is declared twice"
  skip
  let attributes ← namesFrom (← fuel) []
  modify fun p =>
    { p with declarations :=
        { p.declarations with patterns := p.declarations.patterns.insert name attributes } }

/-- Reads a rule after its keyword, which is at the position `start`. -/
def rule (start : Nat) : Routine Parser Sentence := do
  let (_, name) ← nextName
  skip
  modify fun p => { p with draft := { rule := name } }
  let root ← formula (← fuel)
  match (← get).draft.build root with
  | .ok sentence => return sentence
  | .error e => failWithin start "in this rule" e

/-- Answers the change of the roster, whose item starts at the position `start`. -/
def changeRoster (start : Nat) (x : Routine Roster Change) : Routine Parser Change := do
  match ← Routine.attempt (onRoster x) with
  | .ok change => return change
  | .error e => failWithin start "in this change" e

/-- Reads an addition after its sign. -/
def addition (start : Nat) : Routine Parser Change := do
  let pattern ← pattern
  let (position, name) ← nextValue
  if ((← get).declarations.roster.byName? name).isSome then
    failAt position s!"context `{name}` is already live"
  let attributes ← attributes
  changeRoster start (Roster.add pattern (attributes.insert "name" name))

/-- Reads a deletion after its sign. -/
def deletion (start : Nat) : Routine Parser Change := do
  let pattern ← pattern
  skip
  let id ← live (some pattern)
  changeRoster start (Roster.remove id)

/-- Reads an update after its sign. -/
def update (start : Nat) : Routine Parser Change := do
  let pattern ← pattern
  skip
  let id ← live (some pattern)
  let attributes ← attributes
  if attributes.isEmpty then
    failAt (← position) "expected at least one attribute"
  changeRoster start (Roster.update id attributes)

/-- Reads the names of critical contexts up to a closing parenthesis. -/
def criticalFrom : (fuel : Nat) → List Nat → Routine Parser (List Nat)
  | 0, ids => return ids
  | fuel + 1, ids => do
    match (← get).cursor.peek? with
    | some c =>
      if c = ')' then return ids
      let id ← live none
      skip
      criticalFrom fuel (ids ++ [id])
    | none => return ids

/-- Reads what stands between the parentheses of an item. -/
def item : Routine Parser (Option Item) := do
  let start ← position
  if ← read (Cursor.word? "pattern") then
    patternDeclaration
    return none
  else if ← read (Cursor.word? "rule") then return some (.rule (← rule start))
  else if ← read (Cursor.word? "+") then return some (.change (← addition start))
  else if ← read (Cursor.word? "-") then return some (.change (← deletion start))
  else if ← read (Cursor.word? "~") then return some (.change (← update start))
  else if ← read (Cursor.word? "critical") then
    skip
    return some (.critical (← criticalFrom (← fuel) []))
  else if ← read (Cursor.word? "check") then return some .check
  else failAt start "expected top-level item"

/-- Moves past the parenthesis that opens an item. -/
def openItem : Routine Parser Unit := do
  match ← Routine.attempt (read (Cursor.tag "(")) with
  | .ok _ => pure ()
  | .error e => failWithin (← position) "opening top-level item" e

/-- Reads the items of the text from the cursor on. An item counts as read before the parenthesis that
closes it. -/
def itemsFrom : (fuel : Nat) → Routine Parser Unit
  | 0 => pure ()
  | fuel + 1 => do
    if (← get).cursor.rest.isEmpty then return
    openItem
    skip
    match ← item with
    | some found => modify fun p => { p with items := p.items ++ [found] }
    | none => pure ()
    close
    skip
    itemsFrom fuel

/-- Reads all items of the text. -/
def allItems : Routine Parser Unit := do
  skip
  itemsFrom (← fuel)

end Parser

/-- The items of a text, what is declared after it, and the failure that ended the reading. -/
structure Parsed where
  items : List Item
  declarations : Declarations
  failure : Option Failure

/-- Reads the items of a text that follows some lines. -/
def Declarations.parse (d : Declarations) (text : List Char) (lineOffset : Nat) : Parsed :=
  match Parser.allItems { declarations := d, cursor := .start text lineOffset } with
  | .ok _ p => ⟨p.items, p.declarations, none⟩
  | .error e p => ⟨p.items, p.declarations, some e⟩

end RuleMonitor
