import CodeAtlas.Diagnostic
import CodeAtlas.Script.Reader
import CodeAtlas.Source.FileIndex

/-!
# Loading and parsing files

From an index to the programs of its scripts. A file that is too large, that can not be read or
whose text is given up leaves a diagnostic and nothing else.
-/

namespace CodeAtlas

open CodeAtlas.Text

/-- No larger file is parsed. -/
def maxFileSize : Nat := 10 * 1024 * 1024

/-- The text of a file. -/
structure LoadedSource where
  path : String
  text : String
deriving DecidableEq, Repr

/-- A program and the file it was read from. -/
structure ParsedFile where
  path : String
  /-- The number of bytes of the text. -/
  bytes : Nat
  program : Script.Tree

/-- The text of a file, or what keeps it from being parsed. The declared size is looked at before
the file is read. -/
def FileEntry.load (e : FileEntry) : Except Diagnostic LoadedSource :=
  if maxFileSize < e.size then .error (.fileTooLarge e.path e.size maxFileSize)
  else
    match e.source.text with
    | .error failure => .error (.readFailed e.path failure.message)
    | .ok text =>
      if maxFileSize < text.utf8ByteSize then
        .error (.fileTooLarge e.path text.utf8ByteSize maxFileSize)
      else .ok ⟨e.path, text⟩

/-- The results of a list of attempts, and the diagnostics of those that failed. -/
def partitionResults {α : Type} (attempts : List (Except Diagnostic α)) :
    List α × List Diagnostic :=
  (attempts.filterMap fun a => match a with | .ok x => some x | .error _ => none,
    attempts.filterMap fun a => match a with | .ok _ => none | .error d => some d)

/-- The scripts of an index, in the order of their paths. -/
def FileIndex.scripts (index : FileIndex) : List FileEntry :=
  index.entries.filter fun e => e.kind.isScript

/-- The texts of the scripts of an index, and what kept others from being loaded. -/
def FileIndex.load (index : FileIndex) : List LoadedSource × List Diagnostic :=
  partitionResults (index.scripts.map FileEntry.load)

/-- The programs of a project by path. -/
structure ProgramCache where
  files : TextMap ParsedFile

namespace ProgramCache

def empty : ProgramCache := ⟨∅⟩

/-- What parsing a text reports: the first fault, or that there was one. -/
def faults (read : Script.Reader) (source : LoadedSource) : List Diagnostic :=
  let outcome := read source.path source.text
  match outcome.program, outcome.faults with
  | none, faults => [.parseFailed source.path (faults.head?.getD "unrecoverable syntax error")]
  | some _, [] => []
  | some _, first :: rest => [.recoverableParseErrors source.path (rest.length + 1) first]

/-- The file that a text yields, unless it is given up. -/
def parsed? (read : Script.Reader) (source : LoadedSource) : Option ParsedFile :=
  (read source.path source.text).program.map fun program =>
    ⟨source.path, source.text.utf8ByteSize, program⟩

/-- Parses one more file. A program replaces an earlier one of its path; a text that is given up
replaces nothing. -/
def add (read : Script.Reader) (state : ProgramCache × List Diagnostic) (source : LoadedSource) :
    ProgramCache × List Diagnostic :=
  let cache := match parsed? read source with
    | none => state.1
    | some file => ⟨state.1.files.insert source.path file⟩
  (cache, state.2 ++ faults read source)

def build (read : Script.Reader) (sources : List LoadedSource) :
    ProgramCache × List Diagnostic :=
  sources.foldl (add read) (empty, [])

/-- The files in the order of their paths. -/
def toList (cache : ProgramCache) : List ParsedFile := cache.files.values

def size (cache : ProgramCache) : Nat := cache.files.size

def contains (cache : ProgramCache) (path : String) : Bool := cache.files.contains path

end ProgramCache

end CodeAtlas
