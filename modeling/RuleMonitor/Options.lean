import RuleMonitor.Script.Session
import RuleMonitor.Script.Word
import RuleMonitor.Text.Numeral

/-!
# Command lines

A command line holds options, flags and the name of a script. Options take one value, which stands in
the next argument, after an equals sign, or, for a short option, right behind it; short flags can be
combined. After `--` there are only names. An option that is given again takes all the arguments that
follow it, up to the next that starts with a dash; that it has several values is a fault.

The arguments are first read from left to right, where an unknown option or a request for help ends
the reading; then the values are checked, option by option in the order in which they were first
given.

* `CommandLine.read`: the options given, with their values.
* `CommandLine.check`: the first fault among the values.
* `Options.ofArguments`: what a command line asks for.
-/

namespace RuleMonitor

/-! ## Values -/

/-- A Boolean that was written in one of several ways. -/
def readBool? (text : String) : Option Bool :=
  if text = "on" || text = "true" then some true
  else if text = "no" || text = "off" || text = "false" then some false
  else none

/-- A number of 64 bits. -/
def readNat? (text : String) : Option Nat :=
  Text.natural? text.toList

/-- What is wrong with the text of a Boolean. -/
def boolFault? (text : String) : Option String :=
  match readBool? text with
  | some _ => none
  | none => some s!"expected `on/true` or `off/false`, got `{text}`"

/-- What is wrong with the text of a number. -/
def natFault? (text : String) : Option String :=
  match readNat? text with
  | some _ => none
  | none => some s!"expected an integer, got `{text}`"

/-- What is wrong with the text of a number between two bounds. -/
def boundedFault? (lo hi : Nat) (text : String) : Option String :=
  match readNat? text with
  | some n =>
    if lo ≤ n && n ≤ hi then none
    else some s!"expected a value between {lo} and {hi}, got `{n}`"
  | none => natFault? text

/-! ## Options -/

/-- The options that take a value. -/
inductive OptionName where
  | color
  | gen
  | links
  | mg
  | sched
  | seed
  | stats
  | strategy
  | threads
deriving DecidableEq, Repr

/-- The ways a command line can fail to ask for a run. -/
inductive ArgumentFault where
  /-- A value that is not one of those the option lists. -/
  | invalidValue
  /-- A value that the option does not accept. -/
  | invalidFormat
  /-- An option in the last argument, without its value. -/
  | emptyValue
  /-- An option with no value, or with several. -/
  | valueCount
  /-- An option given again without a value. -/
  | repeatedOption
  /-- An argument that is nothing known. -/
  | unknownArgument
  /-- A value for something that takes none. -/
  | unexpectedValue
  /-- A request for help. -/
  | help
  /-- A request for the version. -/
  | version
deriving DecidableEq, Repr

namespace OptionName

/-- The long options. -/
def ofLong? (name : String) : Option OptionName :=
  [("color", color), ("gen", gen), ("links", links), ("mg", mg), ("sched", sched), ("seed", seed),
    ("stats", stats), ("strategy", strategy), ("threads", threads)].lookup name

/-- The short options. -/
def ofShort? : Char → Option OptionName
  | 'c' => some color
  | 's' => some stats
  | _ => none

/-- What is wrong with a value of an option. -/
def fault? (o : OptionName) (value : String) : Option ArgumentFault :=
  let format (fault : Option String) : Option ArgumentFault := fault.map fun _ => .invalidFormat
  match o with
  | color | links | mg | stats => format (boolFault? value)
  | gen | seed => format (natFault? value)
  | threads => format (boundedFault? 1 512 value)
  | sched => if (SchedulingMode.ofName? value).isSome then none else some .invalidValue
  | strategy => if (Strategy.ofName? value).isSome then none else some .invalidValue

end OptionName

/-! ## Reading -/

/-- An option that was given: how often, and with which values. -/
structure GivenOption where
  name : OptionName
  times : Nat
  values : List String
deriving DecidableEq, Repr

/-- What was read of a command line. -/
structure CommandLine where
  /-- The options in the order in which they were first given. -/
  given : List GivenOption := []
  /-- The name of the script. -/
  file : Option String := none
  /-- How often more notes were asked for. -/
  verbose : Nat := 0
  /-- How often fewer notes were asked for. -/
  quiet : Nat := 0
  /-- The option that the next argument may be a value of. -/
  open? : Option OptionName := none
deriving DecidableEq, Repr

namespace CommandLine

/-- One more time that an option is given. -/
def give (o : OptionName) : List GivenOption → List GivenOption
  | [] => [⟨o, 1, []⟩]
  | g :: gs => if g.name = o then { g with times := g.times + 1 } :: gs else g :: give o gs

/-- One more value for an option. -/
def giveValue (o : OptionName) (value : String) (gs : List GivenOption) : List GivenOption :=
  gs.map fun g => if g.name = o then { g with values := g.values ++ [value] } else g

/-- An option has as many values as it takes. -/
def isServed (o : OptionName) (gs : List GivenOption) : Bool :=
  gs.any fun g => g.name = o && g.values.length = 1

/-- An option, with its value if that is part of the same argument. -/
def option (c : CommandLine) (o : OptionName) (value : Option String) : CommandLine :=
  let given := give o c.given
  match value with
  | some v => { c with given := giveValue o v given, open? := none }
  | none => { c with given, open? := some o }

/-- A name without a dash. -/
def name (c : CommandLine) (text : String) : Except ArgumentFault CommandLine :=
  match c.file with
  | none => .ok { c with file := some text, open? := none }
  | some _ => .error .unknownArgument

/-- The text before and after the first equals sign. -/
def splitEquals (cs : List Char) : String × Option String :=
  let before := String.ofList (cs.takeWhile (· ≠ '='))
  match cs.dropWhile (· ≠ '=') with
  | [] => (before, none)
  | _ :: after => (before, some (String.ofList after))

/-- An argument after two dashes. -/
def long (c : CommandLine) (cs : List Char) : Except ArgumentFault CommandLine :=
  let (name, value) := splitEquals cs
  let request (fault : ArgumentFault) : Except ArgumentFault CommandLine :=
    .error (if value.isSome then .unexpectedValue else fault)
  match OptionName.ofLong? name with
  | some o => .ok (c.option o value)
  | none =>
    if name = "help" then request .help
    else if name = "version" then request .version
    else .error .unknownArgument

/-- The letters of an argument after one dash. -/
def short (c : CommandLine) : List Char → Except ArgumentFault CommandLine
  | [] => .ok c
  | 'v' :: cs => short { c with verbose := c.verbose + 1, open? := none } cs
  | 'q' :: cs => short { c with quiet := c.quiet + 1, open? := none } cs
  | 'h' :: _ => .error .help
  | 'V' :: _ => .error .version
  | letter :: cs =>
    match OptionName.ofShort? letter with
    | none => .error .unknownArgument
    | some o =>
      .ok <| c.option o <| match cs with
        | [] => none
        | '=' :: value => some (String.ofList value)
        | value => some (String.ofList value)

/-- An argument that is no name after `--`. -/
def argument (c : CommandLine) (text : String) : Except ArgumentFault CommandLine :=
  match text.toList with
  | '-' :: '-' :: cs => c.long cs
  | '-' :: letter :: cs => c.short (letter :: cs)
  | _ =>
    match c.open? with
    | some o =>
      let given := giveValue o text c.given
      .ok { c with given, open? := if isServed o given then none else some o }
    | none => c.name text

/-- The arguments in order; after `--` they are names. -/
def read (c : CommandLine) : (onlyNames : Bool) → List String → Except ArgumentFault CommandLine
  | _, [] => .ok c
  | true, text :: rest => do read (← c.name text) true rest
  | false, text :: rest => do
    if text = "--" then read c true rest
    else read (← c.argument text) false rest

/-! ## Checking -/

/-- What is wrong with an option that was given. -/
def givenFault? (g : GivenOption) : Option ArgumentFault :=
  if g.values.length ≠ 1 then some .valueCount
  else
    match g.values.findSome? g.name.fault? with
    | some fault => some fault
    | none => if 1 < g.times then some .repeatedOption else none

/-- An option is waiting at the end that never got a value. -/
def endsOpen (c : CommandLine) : Bool :=
  match c.open? with
  | some o => c.given.all fun g => g.name ≠ o || g.values.isEmpty
  | none => false

/-- The first thing wrong with the values. -/
def check (c : CommandLine) : Except ArgumentFault CommandLine :=
  if c.endsOpen then .error .emptyValue
  else
    match c.given.findSome? givenFault? with
    | some fault => .error fault
    | none => .ok c

/-- The value of an option. -/
def value? (c : CommandLine) (o : OptionName) : Option String :=
  (c.given.find? fun g => g.name = o).bind (·.values.head?)

end CommandLine

/-! ## What is asked for -/

/-- What a command line asks for. -/
structure Options where
  /-- The name of the script; without one, it is read from the standard input. -/
  file : Option String
  verbose : Nat
  quiet : Nat
  color : Bool
  stats : Bool
  links : Bool
  checker : CheckerOptions
  mode : SchedulingMode
  /-- The number of random changes made after the script, if any. -/
  generate : Option Nat
  /-- The seed of the random changes. -/
  seed : Nat
deriving DecidableEq

namespace Options

/-- What a command line with correct values asks for. -/
def ofCommandLine (c : CommandLine) : Options :=
  let bool (o : OptionName) (default : Bool) : Bool :=
    ((c.value? o).bind readBool?).getD default
  let nat (o : OptionName) (default : Nat) : Nat :=
    ((c.value? o).bind readNat?).getD default
  let count := nat .gen 0
  { file := c.file
    verbose := c.verbose
    quiet := c.quiet
    color := bool .color true
    stats := bool .stats false
    links := bool .links true
    checker :=
      { strategy := ((c.value? .strategy).bind Strategy.ofName?).getD .change
        minimalLinks := bool .mg true
        threads := nat .threads 8 }
    mode := ((c.value? .sched).bind SchedulingMode.ofName?).getD .batched
    generate := if count = 0 then none else some count
    seed := nat .seed 42 }

/-- What arguments ask for, the name of the program not being one of them. -/
def ofArguments (arguments : List String) : Except ArgumentFault Options := do
  let c ← ({} : CommandLine).read false arguments
  return ofCommandLine (← c.check)

/-- The notes that are shown. -/
def notes (o : Options) : NoteLevel :=
  match o.verbose - o.quiet with
  | 0 => .warning
  | 1 => .info
  | _ => .debug

end Options

end RuleMonitor
