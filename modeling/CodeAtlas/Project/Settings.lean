import CodeAtlas.Graph.Trace
import CodeAtlas.Json.Brief
import CodeAtlas.Json.Overlay
import CodeAtlas.Project.FileTree
import CodeAtlas.Resolution.Aliases

/-!
# Settings of a project

Settings come in layers: built-in values, the settings file of the project, variables of the
environment and values from the command line. Each layer is a document that is laid over the ones
before it, and only the document that results has to make sense, so that a faulty value does no
harm where a later layer replaces it.
-/

namespace CodeAtlas

open CodeAtlas.Json CodeAtlas.Resolution CodeAtlas.Text

structure Settings where
  /-- Aliases, which win over those of a compiler configuration. -/
  aliases : AliasMap
  /-- Patterns of paths that are left out of a scan. -/
  exclude : List String
  /-- The compiler configuration that aliases are taken from, seen from the root. -/
  tsconfig : Option String
  /-- The direction of a trace that does not ask for one. -/
  direction : Direction
  /-- The number of hops of a trace that does not ask for one. -/
  maxHops : Nat

/-- Values from the command line. -/
structure Overrides where
  direction : Option Direction
  maxHops : Option Nat
deriving DecidableEq, Repr

/-- Why settings can not be used. -/
inductive SettingsFault where
  | notFound (path : String)
  | invalidValue (field value hint : String)
  | invalidExclude (pattern reason : String)
deriving DecidableEq, Repr

def SettingsFault.message : SettingsFault → String
  | notFound path =>
    "Config file not found: " ++ path ++
      "\n\nHint: Create a symgraph.json file or fix the --config path"
  | invalidValue field value hint =>
    "Invalid value for '" ++ field ++ "': " ++ value ++ "\n\nHint: " ++ hint
  | invalidExclude pattern reason =>
    "Invalid exclude pattern '" ++ pattern ++ "': " ++ reason ++
      "\n\nHint: Exclude patterns use .gitignore glob syntax, e.g. \"dist/**\""

namespace Settings

/-- The name of the settings file in the root of a project. -/
def fileName : String := "symgraph.json"

/-- How the names of variables with settings begin; the case of the letters does not matter. -/
def variableStart : String := "symgraph_"

/-- Settings that nothing else sets. -/
def default : Settings := ⟨∅, [], none, .dependencies, 2⟩

/-! ## Documents -/

/-- A document of settings. -/
abbrev Document := List (Option String × Value)

/-- What is wrong with a document. -/
inductive DocumentFault where
  | unreadable
  | noObject
  | unknownField (name : String)
  | wrongType (field : String)
deriving DecidableEq, Repr

def DocumentFault.message : DocumentFault → String
  | unreadable => "the settings file is not JSON"
  | noObject => "the settings are not an object"
  | unknownField name => "unknown field '" ++ name ++ "'"
  | wrongType field => "field '" ++ field ++ "' has the wrong type"

/-- The fault of settings whose document is faulty. -/
def DocumentFault.toSettingsFault (fault : DocumentFault) : SettingsFault :=
  .invalidValue "configuration" fault.message "Check symgraph.json syntax and field types"

def fields : List String := ["aliases", "exclude", "tsconfig", "direction", "maxHops"]

/-- No document is nested deeper. -/
def maxDepth : Nat := 127

def documentOf (content : ByteArray) : Except DocumentFault Document :=
  match (String.fromUTF8? content).bind Json.read with
  | none => .error .unreadable
  | some value =>
    if maxDepth < value.depth || !value.allPlain isFinite then .error .unreadable
    else
      match value.distinct with
      | .object members => .ok members
      | _ => .error .noObject

/-- The field that a variable sets. -/
def fieldOfVariable? (name : String) : Option String := do
  match ← dropPrefix? variableStart (String.ofList (trimmed name.toList)).toLower with
  | "aliases" => some "aliases"
  | "exclude" => some "exclude"
  | "tsconfig" => some "tsconfig"
  | "direction" => some "direction"
  | "max_hops" | "maxhops" => some "maxHops"
  | _ => none

/-- The document that the variables of an environment stand for. -/
def documentOfVariables (environment : List (String × String)) : Document :=
  Value.distinctMembers <| environment.filterMap fun (name, text) =>
    (fieldOfVariable? name).map fun field => (some field, readBrief text)

def defaultDocument : Document :=
  [(some "aliases", .object []), (some "direction", .ofText "dependencies"),
    (some "maxHops", .ofNat 2)]

def documentOfOverrides (o : Overrides) : Document :=
  (o.direction.map fun d => (some "direction", .ofText d.name)).toList ++
    (o.maxHops.map fun n => (some "maxHops", .ofNat n)).toList

/-! ## Reading a document -/

/-- The direction that a value names: by its name, by its place in the list of directions, or as
the first member of an object, whose value is null. -/
def directionOf : Value → Option Direction
  | .string (some name) => Direction.ofName? name
  | .number literal =>
    (count? literal.toList).bind fun n => [Direction.dependencies, .dependents, .both][n]?
  | .object members =>
    match (lastMembers members).toList with
    | (name, true) :: _ => Direction.ofName? name
    | _ => none
  | _ => none
where
  /-- For each key, in order, whether its value is null. -/
  lastMembers (members : Document) : TextMap Bool :=
    members.foldl (fun m (key, value) =>
      m.insert (key.getD "") (match value with | .null => true | _ => false)) ∅

def optionalText : Value → Option (Option String)
  | .null => some none
  | value => value.text?.map some

/-- The value of a field: `missing` if the document does not have it. -/
def field {α : Type} (document : Document) (name : String) (read : Value → Option α)
    (missing : α) : Except DocumentFault α :=
  match document.lookup (some name) with
  | none => .ok missing
  | some value =>
    match read value with
    | some a => .ok a
    | none => .error (.wrongType name)

/-- The count that a value is: a number without point, sign and exponent. -/
def countOf : Value → Option Nat
  | .number literal => count? literal.toList
  | _ => none

/-- A name in a document that is no field. -/
def unknownField? (document : Document) : Option String :=
  (document.map fun m => m.1.getD "").find? fun name => !fields.contains name

/-- The settings that a document stands for. -/
def ofDocument (document : Document) : Except DocumentFault Settings := do
  if let some name := unknownField? document then throw (.unknownField name)
  return {
    aliases := ← field document "aliases" Value.textMap? default.aliases
    exclude := ← field document "exclude" Value.texts? default.exclude
    tsconfig := ← field document "tsconfig" optionalText default.tsconfig
    direction := ← field document "direction" directionOf default.direction
    maxHops := ← field document "maxHops" countOf default.maxHops }

/-! ## Loading -/

/-- The document that some layers, the lowest first, stand for together. -/
def layered (layers : List Document) : Document := layers.foldl Value.overlayMembers []

/-- The content of the settings file of a project, if it has one. A file that is asked for has to
be there. -/
def content (files : FileSystem) (root : String) (asked : Option String) :
    Except SettingsFault (Option ByteArray) :=
  let path := Path.join root (asked.getD fileName)
  match files.read path, asked with
  | .ok bytes, _ => .ok (some bytes)
  | .error _, some _ => .error (.notFound path)
  | .error _, none => .ok none

def load (files : FileSystem) (environment : List (String × String)) (root : String)
    (asked : Option String) (overrides : Overrides) : Except SettingsFault Settings := do
  let written ← match ← content files root asked with
    | some bytes => (documentOf bytes).mapError DocumentFault.toSettingsFault
    | none => pure []
  let document := layered [defaultDocument, written, documentOfVariables environment,
    documentOfOverrides overrides]
  (ofDocument document).mapError DocumentFault.toSettingsFault

end Settings

end CodeAtlas
