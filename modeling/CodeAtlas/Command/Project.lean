import CodeAtlas.Command.Failure
import CodeAtlas.Project.PathMapping
import CodeAtlas.Project.Scan

/-!
# Projects

The project that a command works on: its root, its settings, and its aliases, which are those of
the settings completed by those of the compiler configuration.
-/

namespace CodeAtlas

open CodeAtlas.Resolution CodeAtlas.Text

/-- Where a command finds its project. -/
structure ProjectPlace where
  root : Option String
  settings : Option String
deriving DecidableEq, Repr

/-- What a run of a command finds: the files, and the variables of the environment. -/
structure CommandContext where
  files : FileSystem
  environment : List (String × String)

structure Project where
  /-- The absolute and clean path of the root. -/
  root : String
  settings : Settings
  aliases : AliasMap

namespace Project

/-- Opens a project; without a place its root is the working directory. -/
def load (context : CommandContext) (place : ProjectPlace) (overrides : Overrides) :
    Except CommandFailure Project := do
  let asked := place.root.getD "."
  let root ← (context.files.canonical asked).mapError fun cause =>
    (CommandFailure.io cause).withPath asked
  unless context.files.isDirectory root do
    throw (.invalidArgument (asked ++ " is not a directory"))
  let settings ← (Settings.load context.files context.environment root place.settings overrides).mapError
    CommandFailure.settings
  let found := discoverAliases context.files root settings.tsconfig
  return ⟨root, settings, AliasMap.mergeMissing settings.aliases found⟩

/-- The files of a project. -/
def index (project : Project) (context : CommandContext) : Except CommandFailure FileIndex :=
  (scan context.files project.root project.settings.exclude).mapError fun (pattern, fault) =>
    .settings (.invalidExclude pattern fault.message)

/-- A path without any `./` that it begins with. -/
def dropHereChars : List Char → List Char
  | '.' :: '/' :: r => dropHereChars r
  | r => r

/-- The path of a file of a project, for a path as people write it: perhaps absolute, with
backslashes or with `./` in front. -/
def filePath (project : Project) (path : String) : String :=
  let inside :=
    if Path.isAbsolute path then
      match Path.relativeTo? project.root path with
      | some "" | none => path
      | some inside => inside
    else replaceChar '\\' '/' path
  String.ofList (dropHereChars inside.toList)

/-- The start of a trace, for a start as people write it. What follows the first `#` is kept as it
is. -/
def start (project : Project) (text : String) : String :=
  match cutFirst? '#' text with
  | some (path, symbol) => project.filePath path ++ "#" ++ symbol
  | none => project.filePath text

end Project

end CodeAtlas
