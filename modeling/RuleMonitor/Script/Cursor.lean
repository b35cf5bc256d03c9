import RuleMonitor.Failure
import RuleMonitor.Script.Word
import RuleMonitor.Text.Blank
import RuleMonitor.Text.Lines

/-!
# Cursors

A cursor is a place in a text that is being read. Places are counted in bytes. Steps move the cursor
past what they read; a step that fails reports the line of the place at fault, cut around the
character there.

* `Cursor.skip`: blanks, and comments from `;` to the end of the line.
* `Cursor.tag`, `Cursor.word`: a text, or a text that is not continued by a name.
* `Cursor.name`, `Cursor.value`: a name, or a value in quotes or bare.
* `Cursor.errorAt`: the report on a place.
-/

namespace RuleMonitor

open Script Text

/-- A place in a text. -/
structure Cursor where
  /-- The whole text. -/
  source : List Char
  /-- The number of lines before the text. -/
  lineOffset : Nat
  /-- The number of bytes before the place. -/
  position : Nat
  /-- The text from the place on. -/
  rest : List Char
deriving DecidableEq, Repr

namespace Cursor

/-- The start of a text. -/
def start (source : List Char) (lineOffset : Nat) : Cursor :=
  ⟨source, lineOffset, 0, source⟩

/-! ## Reports -/

/-- A text cut after a number of bytes. -/
def cutBytes : Nat → List Char → List Char × List Char
  | _, [] => ([], [])
  | n, c :: cs =>
    if n = 0 then ([], c :: cs)
    else
      let (first, second) := cutBytes (n - c.utf8Size) cs
      (c :: first, second)

/-- The report on a column of a line, in bytes. At the end of the line, the token is `\n`. -/
def reportColumn (message : String) (line : Nat) (content : List Char) (column : Nat) :
    ParseError :=
  let (before, rest) := cutBytes column content
  let (token, after) := match rest with
    | c :: cs => (String.singleton c, String.ofList cs)
    | [] => ("\\n", "")
  { message, before := String.ofList before, token, after, line := some line }

/-- The report past the last line. -/
def reportEnd (message : String) (line : Nat) : ParseError :=
  { message, before := "", token := "<eof>", after := "", line := some line }

/-- The report on a place among lines, the first of which starts at `start` and follows `line` lines.
A place among the characters that end a line which is not the last one cannot be reported. -/
def report (message : String) (position : Nat) :
    (line start : Nat) → List (List Char) → Failure
  | line, _, [] => .of (.parse (reportEnd message line))
  | line, start, text :: rest =>
    let content := trimLineEnd text
    if position ≤ start + byteSize content then
      if position < start then .crash (.text "the place is in the end of a line")
      else .of (.parse (reportColumn message (line + 1) content (position - start)))
    else report message position (line + 1) (start + byteSize text) rest

/-- The failure at a position. -/
def errorAt (c : Cursor) (position : Nat) (message : String) : Failure :=
  report message position c.lineOffset 0 (cutLines c.source)

/-- Fails at a position. -/
def failAt {α : Type} (position : Nat) (message : String) : Routine Cursor α := do
  throw ((← get).errorAt position message)

/-- Fails at the place of the cursor. -/
def failHere {α : Type} (message : String) : Routine Cursor α := do
  failAt (← get).position message

/-! ## Moving -/

/-- The cursor after a text that the rest starts with. -/
def advance (c : Cursor) (read rest : List Char) : Cursor :=
  { c with position := c.position + byteSize read, rest }

/-- What follows blanks and comments, with its position; `comment` says that the text starts in a
comment. -/
def afterBlanks : (comment : Bool) → (position : Nat) → List Char → Nat × List Char
  | _, position, [] => (position, [])
  | true, position, c :: cs => afterBlanks (c ≠ '\n') (position + c.utf8Size) cs
  | false, position, c :: cs =>
    if isBlank c then afterBlanks false (position + c.utf8Size) cs
    else if c = ';' then afterBlanks true (position + c.utf8Size) cs
    else (position, c :: cs)

/-- Moves past blanks and comments. -/
def skip : Routine Cursor Unit :=
  modify fun c =>
    let (position, rest) := afterBlanks false c.position c.rest
    { c with position, rest }

/-- The next character. -/
def peek? (c : Cursor) : Option Char :=
  c.rest.head?

/-- Moves past a text, if it comes next. -/
def tag? (text : String) : Routine Cursor Bool := do
  let c ← get
  match after? text.toList c.rest with
  | some rest =>
    set (c.advance text.toList rest)
    return true
  | none => return false

/-- Moves past a text. -/
def tag (text : String) : Routine Cursor Unit := do
  if !(← tag? text) then failHere s!"expected `{text}`"

/-- The text is continued by a name. -/
def continuesName (cs : List Char) : Bool :=
  match cs with
  | c :: _ => isNameChar c
  | [] => false

/-- Moves past a word, if it comes next and no name continues it. -/
def word? (text : String) : Routine Cursor Bool := do
  let c ← get
  match after? text.toList c.rest with
  | some rest =>
    if continuesName rest then return false
    set (c.advance text.toList rest)
    return true
  | none => return false

/-- Moves past a word. -/
def word (text : String) : Routine Cursor Unit := do
  if !(← word? text) then failHere s!"expected `{text}`"

/-- Moves past characters of names, and answers them. -/
def nameChars : Routine Cursor String := do
  let c ← get
  let read := c.rest.takeWhile isNameChar
  set (c.advance read (c.rest.dropWhile isNameChar))
  return String.ofList read

/-- Reads a name with its position, if one comes next. A keyword is an error. -/
def name? : Routine Cursor (Option (Nat × String)) := do
  let c ← get
  if !(c.rest.head?.any isNameStart) then return none
  let name ← nameChars
  if isKeyword name then
    failAt c.position s!"illegal use of keyword `{name}`"
  return some (c.position, name)

/-- Reads a name with its position. -/
def name : Routine Cursor (Nat × String) := do
  match ← name? with
  | some found => return found
  | none => failHere "expected an identifier"

/-- Reads a value with its position, if one comes next: a text in quotes, which cannot hold a quote,
or bare characters of names. -/
def value? : Routine Cursor (Option (Nat × String)) := do
  let c ← get
  if ← tag? "\"" then
    let quoted ← get
    match quoted.rest.dropWhile (· ≠ '"') with
    | [] => failAt c.position "unclosed string literal"
    | quote :: rest =>
      let text := quoted.rest.takeWhile (· ≠ '"')
      set (quoted.advance (text ++ [quote]) rest)
      return some (c.position, String.ofList text)
  else
    let text ← nameChars
    return if text.isEmpty then none else some (c.position, text)

/-- Reads a value with its position. -/
def value : Routine Cursor (Nat × String) := do
  match ← value? with
  | some found => return found
  | none => failHere "expected a value"

end Cursor

end RuleMonitor
