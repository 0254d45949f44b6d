import CodeAtlas.Command.Basic

/-!
# Arguments

Reading the arguments of a run. They form two levels: what stands before the name of a command,
and what follows it. At each level an argument is a switch, an option with a value, or a plain
word, and `--` makes plain words of all that follow.

A value is looked at only when the next argument that means something settles it, so of several
faults the first one that settles is reported. In this, and in what counts as an option or its
value, arguments are read as the `clap` package reads them; its texts of usage are not kept.
-/

namespace CodeAtlas

open CodeAtlas.Text

/-- Why arguments name no run of a command. -/
inductive ArgumentFault where
  /-- Help was asked for. -/
  | displayHelp
  | displayVersion
  /-- There are no arguments. -/
  | nothingAsked
  | missingCommand
  | unknownCommand
  | unknownArgument
  | unexpectedValue
  | conflict
  /-- A value is missing, empty or none of those that are possible. -/
  | invalidValue
  /-- A value is not the number it has to be. -/
  | invalidNumber
  | missingStart
deriving DecidableEq, Repr

namespace ArgumentFault

/-- Whether the run did what it was asked for. -/
def isRequest : ArgumentFault → Bool
  | displayHelp | displayVersion => true
  | _ => false

def exitCode (fault : ArgumentFault) : Nat := if fault.isRequest then 0 else 2

def message : ArgumentFault → String
  | displayHelp | displayVersion | nothingAsked => ""
  | missingCommand => "a command is missing"
  | unknownCommand => "there is no such command"
  | unknownArgument => "an argument is not expected here"
  | unexpectedValue => "a switch does not take a value"
  | conflict => "an argument can not be used together with another"
  | invalidValue => "the value of an option is missing or not possible"
  | invalidNumber => "the value of an option is not a number"
  | missingStart => "the start of the trace is missing"

end ArgumentFault

/-! ## What may stand among the arguments -/

/-- Where arguments stand: in front of the name of a command, or behind it. -/
inductive ArgumentScope where
  | top | build | trace
deriving DecidableEq, Repr

inductive Switch where
  | verbose | quiet | noColor | json | help | version
deriving DecidableEq, Repr

/-- An argument with a value. -/
inductive ValuedOption where
  | root | settings | direction | maxHops
deriving DecidableEq, Repr

/-- An argument with a name. -/
inductive Parameter where
  | switch (s : Switch)
  | option (o : ValuedOption)
deriving DecidableEq, Repr

namespace Parameter

def isAllowed : ArgumentScope → Parameter → Bool
  | .top, switch .json => false
  | .top, switch _ => true
  | .top, option _ => false
  | .build, option .direction | .build, option .maxHops => false
  | _, switch .version => false
  | _, _ => true

def ofName? : String → Option Parameter
  | "verbose" => some (switch .verbose)
  | "quiet" => some (switch .quiet)
  | "no-color" => some (switch .noColor)
  | "json" => some (switch .json)
  | "help" => some (switch .help)
  | "version" => some (switch .version)
  | "root" => some (option .root)
  | "config" => some (option .settings)
  | "direction" => some (option .direction)
  | "max-hops" => some (option .maxHops)
  | _ => none

def ofLetter? : Char → Option Parameter
  | 'v' => some (switch .verbose)
  | 'q' => some (switch .quiet)
  | 'h' => some (switch .help)
  | 'V' => some (switch .version)
  | 'r' => some (option .root)
  | 'c' => some (option .settings)
  | 'd' => some (option .direction)
  | 'n' => some (option .maxHops)
  | _ => none

end Parameter

def directionValue? : String → Option Direction
  | "deps" => some .dependencies
  | "rdeps" => some .dependents
  | name => Direction.ofName? name

/-- The count that a value of an option names, perhaps after a plus sign. -/
def countValue? (value : String) : Option Nat :=
  Json.count? <| match value.toList with
    | '+' :: r => r
    | r => r

/-! ## Reading one level -/

/-- What was read at one level so far. -/
structure ArgumentDraft where
  /-- The parameters that are settled. -/
  given : List Parameter
  /-- The option that was named last, with its value if there was one. -/
  waiting : Option (ValuedOption × Option String)
  root : Option String
  settings : Option String
  overrides : Overrides
  start : Option String
deriving DecidableEq, Repr

namespace ArgumentDraft

def empty : ArgumentDraft := ⟨[], none, none, none, ⟨none, none⟩, none⟩

def has (d : ArgumentDraft) (s : Switch) : Bool := d.given.contains (.switch s)

/-- Notes a parameter, which may be given once. -/
def give (d : ArgumentDraft) (p : Parameter) : Except ArgumentFault ArgumentDraft :=
  if d.given.contains p then .error .conflict else .ok { d with given := p :: d.given }

/-- Notes the value of an option. -/
def assign (d : ArgumentDraft) (o : ValuedOption) (value : String) :
    Except ArgumentFault ArgumentDraft := do
  let d ← d.give (.option o)
  match o with
  | .root => if value = "" then throw .invalidValue else return { d with root := some value }
  | .settings =>
    if value = "" then throw .invalidValue else return { d with settings := some value }
  | .direction =>
    match directionValue? value with
    | some x => return { d with overrides := { d.overrides with direction := some x } }
    | none => throw .invalidValue
  | .maxHops =>
    match countValue? value with
    | some n => return { d with overrides := { d.overrides with maxHops := some n } }
    | none => throw .invalidNumber

/-- Settles the option that waits. -/
def settle (d : ArgumentDraft) : Except ArgumentFault ArgumentDraft :=
  match d.waiting with
  | none => .ok d
  | some (_, none) => .error .invalidValue
  | some (o, some value) => { d with waiting := none }.assign o value

def turnOn (d : ArgumentDraft) (s : Switch) : Except ArgumentFault ArgumentDraft := do
  let d ← d.settle
  match s with
  | .help => throw .displayHelp
  | .version => throw .displayVersion
  | _ => d.give (.switch s)

/-- Reads the name of an option, perhaps with its value. -/
def name (d : ArgumentDraft) (o : ValuedOption) (value : Option String) :
    Except ArgumentFault ArgumentDraft := do
  let d ← d.settle
  match value with
  | some value => d.assign o value
  | none => return { d with waiting := some (o, none) }

def readLong (scope : ArgumentScope) (d : ArgumentDraft) (text : String) :
    Except ArgumentFault ArgumentDraft :=
  let (name, value) := match cutFirst? '=' text with
    | some (name, value) => (name, some value)
    | none => (text, none)
  match (Parameter.ofName? name).filter (Parameter.isAllowed scope) with
  | none => .error .unknownArgument
  | some (.switch s) => if value.isSome then .error .unexpectedValue else d.turnOn s
  | some (.option o) => d.name o value

/-- Reads what follows one hyphen: letters of switches, or one of an option, which the value may
follow at once or after an equals sign. -/
def readLetters (scope : ArgumentScope) (d : ArgumentDraft) :
    List Char → Except ArgumentFault ArgumentDraft
  | [] => .ok d
  | c :: r =>
    match (Parameter.ofLetter? c).filter (Parameter.isAllowed scope) with
    | none => .error .unknownArgument
    | some (.switch s) =>
      match d.turnOn s with
      | .ok d => readLetters scope d r
      | .error fault => .error fault
    | some (.option o) =>
      match r with
      | [] => d.name o none
      | '=' :: value => d.name o (some (String.ofList value))
      | value => d.name o (some (String.ofList value))

/-- Reads a word behind the name of a command: the value of the option that waits for one, or the
start of a trace. After `--` no option gets a value. -/
def readWord (scope : ArgumentScope) (escaped : Bool) (d : ArgumentDraft) (word : String) :
    Except ArgumentFault ArgumentDraft := do
  match escaped, d.waiting with
  | false, some (o, none) => return { d with waiting := some (o, some word) }
  | _, _ =>
    if scope = .trace && d.start.isNone then
      return { ← d.settle with start := some word }
    else throw .unknownArgument

/-- Whether switches are given that exclude each other. -/
def inConflict (d : ArgumentDraft) : Bool := d.has .verbose && d.has .quiet

def finish (scope : ArgumentScope) (d : ArgumentDraft) : Except ArgumentFault ArgumentDraft := do
  let d ← d.settle
  if d.inConflict then throw .conflict
  if scope = .trace && d.start.isNone then throw .missingStart
  return d

end ArgumentDraft

/-- An argument by its looks. -/
inductive ArgumentForm where
  | long (text : String)
  | letters (text : List Char)
  | word (text : String)
deriving DecidableEq, Repr

/-- What an argument looks like where `--` did not stand before it. A single hyphen is a word. -/
def ArgumentForm.of (argument : String) : ArgumentForm :=
  match argument.toList with
  | '-' :: '-' :: r => long (String.ofList r)
  | '-' :: c :: r => letters (c :: r)
  | _ => word argument

/-- Reads the arguments behind the name of a command. -/
def readCommandArguments (scope : ArgumentScope) :
    (escaped : Bool) → ArgumentDraft → List String → Except ArgumentFault ArgumentDraft
  | _, d, [] => d.finish scope
  | escaped, d, argument :: rest =>
    if !escaped && argument = "--" then readCommandArguments scope true d rest
    else
      let next := match escaped, ArgumentForm.of argument with
        | false, .long text => d.readLong scope text
        | false, .letters text => d.readLetters scope text
        | _, _ => d.readWord scope escaped argument
      match next with
      | .ok d => readCommandArguments scope escaped d rest
      | .error fault => .error fault

/-! ## Reading both levels -/

def ArgumentDraft.command (scope : ArgumentScope) (d : ArgumentDraft) : Command :=
  let place : ProjectPlace := ⟨d.root, d.settings⟩
  match scope with
  | .trace => .trace place (d.has .json) (d.start.getD "") d.overrides
  | _ => .build place (d.has .json)

def scopeOf? : String → Option ArgumentScope
  | "build" => some .build
  | "trace" => some .trace
  | _ => none

/-- What a request for help on some commands comes to. -/
def helpOn : List String → ArgumentFault
  | [] => .displayHelp
  | [name] => if (scopeOf? name).isSome || name = "help" then .displayHelp else .unknownCommand
  | _ => .unknownCommand

/-- The run that arguments in front of the name of a command and behind it describe. -/
def readCommand (top : ArgumentDraft) (scope : ArgumentScope) (arguments : List String) :
    Except ArgumentFault Invocation := do
  let d ← readCommandArguments scope false .empty arguments
  if top.inConflict then throw .conflict
  let either (s : Switch) : Bool := top.has s || d.has s
  return ⟨either .verbose, either .quiet, either .noColor, d.command scope⟩

/-- Reads the arguments in front of the name of a command, and all that follow. -/
def readArguments :
    (escaped : Bool) → ArgumentDraft → List String → Except ArgumentFault Invocation
  | _, d, [] => .error (if d.given.isEmpty then .nothingAsked else .missingCommand)
  | escaped, d, argument :: rest =>
    if escaped then
      .error <|
        if (scopeOf? argument).isSome || argument = "help" then .unknownArgument
        else .unknownCommand
    else if argument = "--" then readArguments true d rest
    else
      match scopeOf? argument with
      | some scope => readCommand d scope rest
      | none =>
        if argument = "help" then .error (helpOn rest)
        else
          let next := match ArgumentForm.of argument with
            | .long text => d.readLong .top text
            | .letters text => d.readLetters .top text
            | .word _ => .error .unknownCommand
          match next with
          | .ok d => readArguments false d rest
          | .error fault => .error fault

def Invocation.ofArguments (arguments : List String) : Except ArgumentFault Invocation :=
  readArguments false .empty arguments

end CodeAtlas
