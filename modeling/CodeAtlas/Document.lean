import CodeAtlas.Build
import CodeAtlas.Graph.Trace
import CodeAtlas.Json.Value
import CodeAtlas.Project.Settings

/-!
# Documents

Settings and the results of builds and traces as JSON values. Nodes and files come in order, so
equal results have equal documents.
-/

namespace CodeAtlas

open CodeAtlas.Json

/-- The document of a diagnostic: its kind and what it says. -/
def Diagnostic.document : Diagnostic → Value
  | readFailed path message =>
    .ofMembers [("kind", .ofText "readFailed"), ("path", .ofText path),
      ("message", .ofText message)]
  | fileTooLarge path size max =>
    .ofMembers [("kind", .ofText "fileTooLarge"), ("path", .ofText path), ("size", .ofNat size),
      ("max", .ofNat max)]
  | parseFailed path message =>
    .ofMembers [("kind", .ofText "parseFailed"), ("path", .ofText path),
      ("message", .ofText message)]
  | recoverableParseErrors path count first =>
    .ofMembers [("kind", .ofText "recoverableParseErrors"), ("path", .ofText path),
      ("count", .ofNat count), ("first", .ofText first)]
  | illegalCrossPackageImport importer specifier target =>
    .ofMembers [("kind", .ofText "illegalCrossPackageImport"), ("from", .ofText importer),
      ("specifier", .ofText specifier), ("target", .ofText target)]
  | traversalFailed pass path message =>
    .ofMembers [("kind", .ofText "traversalFailed"), ("pass", .ofText pass.name),
      ("path", .ofText path), ("message", .ofText message)]

def NodeId.document (id : NodeId) : Value := .ofText id.text

/-- The node that a document means. Every text means one, and nothing else does. -/
def NodeId.ofDocument? (document : Value) : Option NodeId := document.text?.map ofText

def NodeId.documentOf (ids : List NodeId) : Value := .ofTexts (ids.map NodeId.text)

def NodeRecord.document (id : NodeId) (r : NodeRecord) : Value :=
  .ofMembers [("id", .ofText id.text), ("kind", .ofText r.kind.name),
    ("dependencies", NodeId.documentOf r.dependencies.toList),
    ("dependents", NodeId.documentOf r.dependents.toList)]

/-- The document of a graph: the list of its nodes. -/
def SymbolGraph.document (g : SymbolGraph) : Value :=
  .list (g.toList.map fun (id, r) => r.document id)

def GraphStatistics.document (s : GraphStatistics) : Value :=
  .ofMembers [("fileNodes", .ofNat s.fileNodes), ("symbolNodes", .ofNat s.symbolNodes),
    ("edges", .ofNat s.edges), ("symbolEdges", .ofNat s.symbolEdges)]

/-- The members of the document of a build, apart from the time it took. -/
def BuildStats.members (s : BuildStats) : List (String × Value) :=
  [("filesIndexed", .ofNat s.filesIndexed), ("filesLoaded", .ofNat s.filesLoaded),
    ("filesParsed", .ofNat s.filesParsed), ("filesDiscovered", .ofNat s.filesDiscovered),
    ("filesLinked", .ofNat s.filesLinked), ("graph", s.graph.document)]

def Trace.document (t : Trace) : Value :=
  .ofMembers [("start", .ofText t.start), ("direction", .ofText t.direction.name),
    ("maxHops", .ofNat t.maxHops),
    ("files", .ofMembers (t.files.toList.map fun (path, distance) => (path, .ofNat distance)))]

/-- The document of settings. A list of patterns without any is left out. -/
def Settings.document (s : Settings) : Value :=
  let aliases := s.aliases.toList.map fun (start, target) => (start, Value.ofText target)
  .ofMembers <|
    [("aliases", .ofMembers aliases)] ++
    (if s.exclude.isEmpty then [] else [("exclude", .ofTexts s.exclude)]) ++
    (s.tsconfig.map fun path => ("tsconfig", Value.ofText path)).toList ++
    [("direction", .ofText s.direction.name), ("maxHops", .ofNat s.maxHops)]

end CodeAtlas
