import CodeAtlas.Failure
import CodeAtlas.Project.Settings

/-!
# Failures of commands

What makes a command end without a result. On its way out a failure may be given a path, a hint or
a context; `report` is what the user reads in the end.
-/

namespace CodeAtlas

inductive CommandFailure where
  | settings (fault : SettingsFault)
  | graph (failure : Failure)
  | invalidArgument (text : String)
  | fileNotFound (path : String)
  | io (cause : IoCause)
  /-- A document that could not be written. -/
  | document (text : String)
  | custom (text : String)
deriving DecidableEq, Repr

namespace CommandFailure

/-- The text of a failure. -/
def message : CommandFailure → String
  | settings fault => "Configuration error: " ++ fault.message
  | graph failure => "Graph error: " ++ failure.message
  | invalidArgument text => "Invalid argument: " ++ text
  | fileNotFound path => "File not found: " ++ path
  | io cause => "I/O error: " ++ cause.message
  | document text => "JSON error: " ++ text
  | custom text => text

/-- Puts a path to the refusal of a file that is missing. -/
def withPath (path : String) : CommandFailure → CommandFailure
  | io cause => if cause.isMissing then fileNotFound path else io cause
  | other => other

/-- The failure with a hint under its text. -/
def withHint (hint : String) (failure : CommandFailure) : CommandFailure :=
  custom (failure.message ++ "\n\nHint: " ++ hint)

/-- The failure with a text in front of its own. -/
def inContext (context : String) (failure : CommandFailure) : CommandFailure :=
  custom (context ++ ": " ++ failure.message)

/-- What the user reads: some failures come with advice. -/
def report : CommandFailure → String
  | graph (.invalidConfig cause) =>
    "Invalid alias configuration: " ++ cause.message ++
      "\n\nHint: Check \"aliases\" in symgraph.json and compilerOptions.paths in tsconfig.json"
  | fileNotFound path =>
    "File not found: " ++ path ++ "\n\nHint: Pass an existing project directory with --root"
  | other => other.message

end CommandFailure

end CodeAtlas
