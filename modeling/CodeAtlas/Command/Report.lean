import CodeAtlas.Command.Basic
import CodeAtlas.Command.Duration
import CodeAtlas.Document
import CodeAtlas.Json.Writer

/-!
# Reports

What the user sees of an answer: lines with the result, and notices beside it. With the option for
documents the result is one JSON document and there are no notices.
-/

namespace CodeAtlas

open CodeAtlas.Json CodeAtlas.Text

/-- A number with the noun that it counts. -/
def counted (n : Nat) (one many : String) : String :=
  Nat.repr n ++ " " ++ if n = 1 then one else many

/-- What an answer looks like. -/
structure Report where
  /-- What is said beside the result. -/
  notices : List String
  /-- The result. -/
  lines : List String
deriving DecidableEq, Repr

namespace Report

/-- A notice that something was done. -/
def success (text : String) : String := "✓ " ++ text

/-- A notice that something deserves attention. -/
def warning (text : String) : String := "⚠ " ++ text

/-- A notice with its first word set off by the bold style of terminals. -/
def emphasized (notice : String) : String :=
  match cutFirst? ' ' notice with
  | some (mark, text) => "\x1b[1m" ++ mark ++ "\x1b[0m " ++ text
  | none => notice

/-- A text with blanks after it, up to a number of characters. -/
def padded (width : Nat) (text : String) : String :=
  text ++ String.ofList (List.replicate (width - text.length) ' ')

def ofBuild (root : String) (build : GraphBuild) (elapsed : Duration) : Report :=
  let stats := build.stats
  let line (title : String) (n : Nat) (rest : String) : String :=
    "  " ++ padded 10 title ++ Nat.repr n ++ rest
  let found := build.diagnostics
  let summary :=
    [line "files" stats.filesIndexed (" (" ++ Nat.repr stats.filesParsed ++ " parsed)"),
      line "symbols" stats.graph.symbolNodes "",
      line "edges" stats.graph.edges
        (" (" ++ Nat.repr stats.graph.symbolEdges ++ " from symbols)")]
  { notices := success ("Built symbol graph for " ++ root ++ " in " ++ elapsed.text) ::
      if found.isEmpty then [] else [warning (counted found.length "diagnostic" "diagnostics")]
    lines := summary ++ found.map fun d => "  - " ++ d.message }

def buildDocument (root : String) (build : GraphBuild) (elapsed : Duration) : Value :=
  .ofMembers [("root", .ofText root),
    ("stats", .ofMembers (build.stats.members ++ [("elapsedMs", .ofNat elapsed.milliseconds)])),
    ("diagnostics", .list (build.diagnostics.map Diagnostic.document))]

def distanceText (distance : Nat) : String :=
  if distance = 0 then "start" else counted distance "hop" "hops"

/-- The files of a trace with their distances. The column of paths is as wide as the longest one
in bytes. -/
def ofTrace (trace : Trace) : Report :=
  if trace.isEmpty then ⟨[warning ("'" ++ trace.start ++ "' is not in the graph")], []⟩
  else
    let width := (trace.paths.map String.utf8ByteSize).foldl max 0
    { notices := ["Tracing " ++ trace.direction.name ++ " of " ++ trace.start ++ " within " ++
        counted trace.maxHops "hop" "hops"]
      lines := trace.files.toList.map fun (path, distance) =>
        padded width path ++ "  " ++ distanceText distance }

def ofAnswer (json : Bool) (elapsed : Duration) : CommandAnswer → Report
  | .built root build =>
    if json then ⟨[], [write (buildDocument root build elapsed)]⟩ else ofBuild root build elapsed
  | .traced trace => if json then ⟨[], [write trace.document]⟩ else ofTrace trace

end Report

/-- Whether output to a terminal is to be colored: two variables decide, the one that forbids
before the one that forces, and otherwise the terminal. -/
def usesColors (environment : List (String × String)) (terminal : Bool) : Bool :=
  let isSet (name : String) : Bool := environment.any fun v => v.1 == name
  if isSet "NO_COLOR" then false else isSet "FORCE_COLOR" || terminal

end CodeAtlas
