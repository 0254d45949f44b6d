import CodeAtlas.Text.Cut

/-!
# Clean paths

Paths are texts whose segments are separated by slashes. `clean` removes what a path does not
need: empty segments, `.` segments, and every `..` together with the segment before it. Nothing
here looks at a file system, so symbolic links play no part. The clean form is that of the
`path_clean` package.
-/

namespace CodeAtlas.Path

open CodeAtlas.Text

/-- Whether a path begins at the root. -/
def isAbsolute (path : String) : Bool := beginsWith '/' path

/-- The segments of a path that lead somewhere: neither empty nor `.`. -/
def segments (path : String) : List String :=
  (pieces '/' path).filter fun s => s != "" && s != "."

/-- Appends a segment to a clean stack of segments, whose last segment comes first. A `..`
removes the segment before it; at the root it goes nowhere, and in a relative path that has left
its beginning it stays. -/
def pushSegment (absolute : Bool) (stack : List String) (segment : String) : List String :=
  if segment = ".." then
    match stack with
    | [] => if absolute then [] else [".."]
    | top :: below => if top = ".." then ".." :: top :: below else below
  else segment :: stack

def cleanSegments (absolute : Bool) (list : List String) : List String :=
  (list.foldl (pushSegment absolute) []).reverse

/-- The path with the given segments; without any it is the root or the current directory. -/
def ofSegments (absolute : Bool) (list : List String) : String :=
  if absolute then "/" ++ "/".intercalate list
  else if list.isEmpty then "." else "/".intercalate list

def clean (path : String) : String :=
  ofSegments (isAbsolute path) (cleanSegments (isAbsolute path) (segments path))

/-- The form of a path inside a project: clean, with slashes in place of backslashes, and empty
for the current directory. -/
def normalize (path : String) : String :=
  let cleaned := replaceChar '\\' '/' (clean path)
  if cleaned = "." then "" else cleaned

/-- The directory of a path: what precedes its last slash. -/
def dirname (path : String) : String :=
  match cutLast? '/' path with
  | some (directory, _) => directory
  | none => ""

/-- The path that `specifier` names beside the file `importer`. -/
def joinRelative (importer specifier : String) : String :=
  let directory := dirname importer
  if directory = "" then normalize specifier else normalize (directory ++ "/" ++ specifier)

/-- Whether a specifier is written relative to its file. -/
def isRelative (specifier : String) : Bool := beginsWith '.' specifier

/-! ## Paths of the file system -/

/-- `path` seen from the directory `base`: an absolute path stands for itself. -/
def join (base path : String) : String :=
  if isAbsolute path then path
  else if base = "" then path
  else if endsWith '/' base then base ++ path
  else base ++ "/" ++ path

/-- Segments as components: `.` counts only at the beginning of a relative path. -/
def components (path : String) : List String :=
  let rest := segments path
  if isAbsolute path then "/" :: rest
  else if (pieces '/' path).head? = some "." then "." :: rest
  else rest

/-- What remains of `list` after the components of `start`. -/
def dropComponents? : List String → List String → Option (List String)
  | [], list => some list
  | _ :: _, [] => none
  | c :: cs, d :: ds => if c = d then dropComponents? cs ds else none

/-- The path of `path` below the directory `root`, if it lies there. -/
def relativeTo? (root path : String) : Option String :=
  (dropComponents? (components root) (components path)).map ("/".intercalate ·)

/-- The directory that holds what a path leads to, read off the path: all but its last
component. -/
def parent (path : String) : String :=
  ofSegments (isAbsolute path) (segments path).dropLast

/-- The last segment of a path, unless the path ends in `..` or at the root. -/
def fileName? (path : String) : Option String :=
  match (components path).getLast? with
  | some last => if last = ".." || last = "/" || last = "." then none else some last
  | none => none

/-- The extension of a path: what follows the last point of its file name, unless the name
begins with that point. -/
def extension? (path : String) : Option String := do
  let name ← fileName? path
  let (stem, extension) ← cutLast? '.' name
  if stem = "" then none else some extension

end CodeAtlas.Path
