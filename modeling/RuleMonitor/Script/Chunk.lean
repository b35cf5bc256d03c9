import RuleMonitor.Failure
import RuleMonitor.Text.Lines

/-!
# Chunks of a script

A script is read line by line, as many lines at a time as an item needs: a chunk ends with the first
line after which all parentheses are closed. Parentheses in quotes and in comments do not count. A
source may hold lines that cannot be read.

* `SourceLine.ofBytes`, `SourceLine.ofText`: the lines of a source.
* `ChunkScan.line`: what a line opens and closes.
* `readChunk`: the lines of the next chunk.
-/

namespace RuleMonitor

open Text

/-- A line of a source. -/
inductive SourceLine where
  /-- A line with its end. -/
  | text (line : List Char)
  /-- Something that cannot be read. -/
  | unreadable (reason : String)
deriving DecidableEq, Repr

namespace SourceLine

/-- The bytes cut after each line feed. -/
def cutBytes : List UInt8 → List (List UInt8)
  | [] => []
  | b :: bs =>
    if b = 0x0A then [b] :: cutBytes bs
    else match cutBytes bs with
      | [] => [[b]]
      | line :: lines => (b :: line) :: lines

/-- A line from its bytes, which have to be UTF-8. -/
def ofLine (bytes : List UInt8) : SourceLine :=
  match String.fromUTF8? ⟨bytes.toArray⟩ with
  | some line => text line.toList
  | none => unreadable "stream did not contain valid UTF-8"

/-- The lines of a source of bytes. -/
def ofBytes (bytes : List UInt8) : List SourceLine :=
  (cutBytes bytes).map ofLine

/-- The lines of a text. -/
def ofText (cs : List Char) : List SourceLine :=
  (cutLines cs).map text

end SourceLine

/-- What the lines of a chunk opened and did not close. -/
structure ChunkScan where
  /-- The number of parentheses opened and not closed. -/
  depth : Int := 0
  /-- A parenthesis was opened. -/
  opened : Bool := false
  /-- The line ended between quotes. -/
  quoted : Bool := false
deriving DecidableEq, Repr

namespace ChunkScan

/-- What was opened after one more line. -/
def line (s : ChunkScan) : List Char → ChunkScan
  | [] => s
  | c :: cs =>
    if c = '"' then line { s with quoted := !s.quoted } cs
    else if s.quoted then line s cs
    else if c = ';' then s
    else if c = '(' then line { s with depth := s.depth + 1, opened := true } cs
    else if c = ')' then line { s with depth := s.depth - 1 } cs
    else line s cs

/-- All parentheses are closed, or more of them than were opened. -/
def isComplete (s : ChunkScan) : Bool :=
  (s.opened && s.depth = 0) || s.depth < 0

end ChunkScan

/-- The lines of a chunk. -/
structure Chunk where
  /-- The number of lines. -/
  lines : Nat
  text : List Char
  /-- The lines after the chunk. -/
  rest : List SourceLine

/-- The lines that complete a chunk of which some were read. -/
def readChunkFrom (scan : ChunkScan) (lines : Nat) (text : List Char) :
    List SourceLine → Except Failure Chunk
  | [] => .ok ⟨lines, text, []⟩
  | .unreadable reason :: _ => .error (.of (.input reason))
  | .text line :: rest =>
    let scan := scan.line line
    if scan.isComplete then .ok ⟨lines + 1, text ++ line, rest⟩
    else readChunkFrom scan (lines + 1) (text ++ line) rest

/-- The lines of the next chunk, after a text that they are appended to. At the end of the source the
chunk has no lines. -/
def readChunk (text : List Char) (source : List SourceLine) : Except Failure Chunk :=
  readChunkFrom {} 0 text source

end RuleMonitor
