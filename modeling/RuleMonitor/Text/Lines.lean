/-!
# Lines

A text is cut after each line feed, so that its lines concatenate to it. A message is shown line by
line, where a carriage return before the line feed belongs to the line end.

* `cutLines`: the lines with their ends; `flatten_cutLines`: nothing is lost.
* `displayLines`: the lines without their ends.
* `byteSize`: the number of bytes of a text in UTF-8, the unit of columns.
-/

namespace RuleMonitor.Text

/-- The number of bytes of a text in UTF-8. -/
def byteSize : List Char → Nat
  | [] => 0
  | c :: cs => c.utf8Size + byteSize cs

@[simp] theorem byteSize_nil : byteSize [] = 0 := rfl

@[simp] theorem byteSize_cons (c : Char) (cs : List Char) :
    byteSize (c :: cs) = c.utf8Size + byteSize cs := rfl

@[simp] theorem byteSize_append (cs ds : List Char) :
    byteSize (cs ++ ds) = byteSize cs + byteSize ds := by
  induction cs with
  | nil => simp
  | cons c cs ih => simp [ih, Nat.add_assoc]

/-- The lines of a text, each with the line feed that ends it. -/
def cutLines : List Char → List (List Char)
  | [] => []
  | c :: cs =>
    if c = '\n' then [c] :: cutLines cs
    else match cutLines cs with
      | [] => [[c]]
      | line :: lines => (c :: line) :: lines

theorem flatten_cutLines (cs : List Char) : (cutLines cs).flatten = cs := by
  induction cs with
  | nil => rfl
  | cons c cs ih =>
    unfold cutLines
    split
    · simp [ih]
    · split
      · next h => simp [h] at ih; simp [← ih]
      · next h => simp [h] at ih; simp [ih]

/-- A line without the carriage returns and line feeds at its end. -/
def trimLineEnd (line : List Char) : List Char :=
  (line.reverse.dropWhile fun c => c == '\n' || c == '\r').reverse

/-- A line without its line feed, and without the carriage return before it. -/
def dropLineEnd (line : List Char) : List Char :=
  match line.reverse with
  | '\n' :: '\r' :: rest => rest.reverse
  | '\n' :: rest => rest.reverse
  | _ => line

/-- The lines of a message, without their ends. -/
def displayLines (message : String) : List String :=
  (cutLines message.toList).map fun line => String.ofList (dropLineEnd line)

end RuleMonitor.Text
