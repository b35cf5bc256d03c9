import RuleMonitor.Schedule.Scheduler
import RuleMonitor.Script.Chunk
import RuleMonitor.Script.Item
import RuleMonitor.Style
import RuleMonitor.Workload

/-!
# Sessions

A session works through a script: it reads chunk by chunk, does what the items ask for, and prints a
line for each cycle. An item that cannot be read is reported and skipped, unless the session has to
stop there. At the end of the script random changes may be made, and what is pending is submitted.

* `SessionOptions`: how a session works, and what it shows.
* `Session.act`: what an item asks for.
* `Session.run`: a whole script.
-/

namespace RuleMonitor

/-- How a session works, and what it shows. -/
structure SessionOptions where
  checker : CheckerOptions := {}
  mode : SchedulingMode := .batched
  /-- The number of random changes made after the script, if any. -/
  generate : Option Nat := none
  /-- The seed of the random changes. -/
  seed : Nat := 42
  /-- The witnesses of violations are shown. -/
  links : Bool := true
  /-- The first item that cannot be read ends the session. -/
  stopOnError : Bool := false
  /-- The notes that are shown: those of some level or more important. -/
  notes : Option NoteLevel := none
  /-- The profile is shown at the end. -/
  stats : Bool := false
  styles : Styles := .of false

/-- A session. -/
structure Session where
  options : SessionOptions
  scheduler : Scheduler
  declarations : Declarations := {}
  /-- What was printed, in pieces. -/
  output : Array String := #[]

/-! ## Notes -/

/-- The place of a level in the order of importance. -/
def NoteLevel.rank : NoteLevel → Nat
  | warning => 0
  | info => 1
  | debug => 2

namespace Note

/-- The block of a warning, and the lines of other notes. -/
def render (styles : Styles) (n : Note) : String :=
  let lines := Text.displayLines n.text
  match n.level with
  | .warning =>
    "; " ++ styles.sad.paint "|===| Warning:" ++
      String.join (lines.map fun line => "\n; " ++ styles.sad.paint "|" ++ " " ++ line) ++
      "\n; " ++ styles.sad.paint "|===|" ++ "\n"
  | .info | .debug => "\n".intercalate (lines.map ("; " ++ ·)) ++ "\n"

/-- The note is important enough to be shown. -/
def isShown (limit : Option NoteLevel) (n : Note) : Bool :=
  match limit with
  | some level => n.level.rank ≤ level.rank
  | none => false

end Note

/-! ## Reports -/

namespace Report

/-- The style of a truth. -/
def truthStyle (styles : Styles) : Truth → Style
  | .yes => styles.happy
  | .no => styles.bad
  | .unknown => styles.sad

/-- The line of a report, with or without the witnesses. -/
def render (styles : Styles) (links : Bool) (r : Report) : String :=
  let truth := (truthStyle styles r.status.truth).paint r.status.truth.word
  let shown := if links then r.status.witnesses else []
  "(" ++ styles.emphasis.paint r.rule ++ " " ++ truth ++
    String.join (shown.map fun l => " " ++ l.render) ++ ")\n"

end Report

namespace Session

/-- The start of a session. -/
def start (options : SessionOptions) : Session where
  options
  scheduler :=
    { mode := options.mode, checker := { options := options.checker, registry := .builtin } }

/-- What was printed. -/
def printed (s : Session) : String :=
  String.join s.output.toList

/-- Prints a text. -/
def print (text : String) : Routine Session Unit :=
  modify fun s => { s with output := s.output.push text }

/-- The session with the notes of the checker printed. -/
def showNotes (s : Session) : Session :=
  let shown := s.scheduler.checker.notes.filter (·.isShown s.options.notes)
  { s with
    output := s.output ++ shown.map (·.render s.options.styles)
    scheduler := { s.scheduler with checker := { s.scheduler.checker with notes := #[] } } }

/-- Works on the scheduler, and prints the notes that it leaves. -/
def onScheduler {α : Type} (x : Routine Scheduler α) : Routine Session α :=
  Routine.onPart Session.scheduler (fun scheduler s => { s with scheduler }.showNotes) x

/-- Says something. -/
def note (level : NoteLevel) (text : String) : Routine Session Unit :=
  onScheduler (Scheduler.onChecker (Checker.note level text))

/-- Prints a report. -/
def report (r : Report) : Routine Session Unit := do
  let options := (← get).options
  print (r.render options.styles options.links)

/-- Prints reports. -/
def reportAll (reports : List Report) : Routine Session Unit :=
  reports.forM report

/-- Schedules a change, and reports on the cycles that it leads to. -/
def schedule (c : Change) : Routine Session Unit := do
  note .debug s!"change {c.render}"
  reportAll (← onScheduler (Scheduler.schedule c))

/-- Submits what is pending, and reports on it. -/
def flush : Routine Session Unit := do
  reportAll (← onScheduler Scheduler.flush)

/-- Prints the state of all rules. -/
def reportRules : Routine Session Unit := do
  print "(check\n"
  (← get).scheduler.checker.ruleList.forM fun r => do
    print "  "
    report r.report
  print ")\n"

/-- Does what an item asks for; `snapshot` holds the contexts that a new rule starts with. -/
def act (snapshot : List Change) : Item → Routine Session Unit
  | .rule s => do
    report (← onScheduler (Scheduler.onChecker (Checker.addRule s snapshot)))
  | .change c => schedule c
  | .critical ids => modify fun s => { s with scheduler := ids.foldl (·.addCritical ·) s.scheduler }
  | .check => do
    flush
    reportRules

/-! ## Scripts -/

/-- What becomes of a failure to read an item: it is printed, unless it ends the session. -/
def unread (failure : Failure) : Routine Session Unit := do
  match failure with
  | .crash c => throw (.crash c)
  | .error e =>
    if (← get).options.stopOnError then throw (.error e)
    else print e.report

/-- Reads the items of a chunk, and does what they ask for. -/
def readItems (text : List Char) (lineOffset : Nat) : Routine Session Unit := do
  let parsed := (← get).declarations.parse text lineOffset
  modify fun s => { s with declarations := parsed.declarations }
  match parsed.failure with
  | some failure => unread failure
  | none => pure ()
  parsed.items.forM (act parsed.declarations.roster.snapshot)

/-- Works through the rest of a source, chunk by chunk. -/
def readSource : (fuel lineOffset : Nat) → List SourceLine → Routine Session Unit
  | 0, _, _ => pure ()
  | fuel + 1, lineOffset, source => do
    match readChunk [] source with
    | .error failure => throw (failure.within (.plain "while reading input"))
    | .ok chunk =>
      if chunk.lines = 0 then return
      readItems chunk.text lineOffset
      readSource fuel (lineOffset + chunk.lines) chunk.rest

/-- Draws a random change of the live contexts. -/
def drawChange (w : Workload Generator) :
    Routine Session (Option Change × Workload Generator) := do
  match Workload.change { w with roster := (← get).declarations.roster } with
  | .ok c w =>
    modify fun s => { s with declarations := { s.declarations with roster := w.roster } }
    return (c, w)
  | .error e w =>
    modify fun s => { s with declarations := { s.declarations with roster := w.roster } }
    throw e

/-- Makes `n` random changes. -/
def generate : (n : Nat) → Workload Generator → Routine Session Unit
  | 0, _ => pure ()
  | n + 1, w => do
    match ← drawChange w with
    | (none, _) => note .warning "no pattern declared, cannot generate changes"
    | (some c, w) =>
      schedule c
      generate n w

/-- The bound of the values of random changes. -/
def valueBound : Nat := 4

/-- Makes the random changes that are asked for. -/
def generateAll : Routine Session Unit := do
  let s ← get
  match s.options.generate with
  | none => pure ()
  | some n =>
    note .info s!"generating {n} random change(s), seed {s.options.seed}"
    generate n (.start s.options.seed s.declarations.patterns valueBound s.declarations.roster)

/-- Prints the profile, if it is asked for. -/
def showProfile : Routine Session Unit := do
  let s ← get
  if s.options.stats then
    let checker := s.scheduler.checker
    let block ← Routine.ofExcept (renderProfile "top" checker.profile checker.counters)
    print ("\n" ++ block ++ "\n")

/-- Works through a whole script. -/
def run (source : List SourceLine) : Routine Session Unit := do
  readSource (source.length + 1) 0 source
  generateAll
  flush
  showProfile

end Session

end RuleMonitor
