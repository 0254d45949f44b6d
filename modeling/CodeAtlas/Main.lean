import CodeAtlas.Command.Arguments
import CodeAtlas.Command.Report
import CodeAtlas.Script.Reader

/-!
# The program

Collects what a run needs from the system, leaves the work to the library and prints the report.
Only the parts of the disk that a command may look at are collected. The standard library tells names
as texts, so names that are not UTF-8 do not get this far.
-/

namespace CodeAtlas.Program

open CodeAtlas.Text

def usage : String :=
  "Usage: atlas [OPTIONS] <COMMAND>\n\n" ++
  "Commands:\n" ++
  "  build  Build the symbol graph of a project and report what was found\n" ++
  "  trace  List the files that can be reached from a file or symbol\n\n" ++
  "Options:\n" ++
  "  -r, --root <DIR>       Root of the project\n" ++
  "  -c, --config <FILE>    Settings file\n" ++
  "  -d, --direction <DIR>  dependencies, dependents or both (trace)\n" ++
  "  -n, --max-hops <HOPS>  Greatest distance (trace)\n" ++
  "      --json             Print a JSON document\n" ++
  "  -v, --verbose          Say more\n" ++
  "  -q, --quiet            Say less\n" ++
  "      --no-color         Print without colors\n"

def version : String := "atlas 0.1.0"

def readFile? (path : String) : IO (Option ByteArray) := do
  try return some (← IO.FS.readBinFile path) catch _ => return none

/-- A file of the disk with the size that the system tells, or what keeps it from being read. -/
def openFile (path : String) (size : Nat) : IO FileTree := do
  try return .file (← IO.FS.readBinFile path)
  catch cause => return .sealedFile (some size) (.stated false (toString cause))

/-- The canonical form of a path, if something stands there. -/
def canonical? (path : String) : IO (Option String) := do
  try
    let found ← IO.FS.realPath path
    if ← found.pathExists then return some found.toString else return none
  catch _ => return none

/-- Whether the content of a file has to be read. -/
def isRead (name : String) : Bool :=
  (SourceKind.ofPath name).isScript || name == Settings.fileName || name == defaultMappingName ||
    name == ".ignore" || name == ".gitignore"

/-- The tree below a directory, without what no command enters. -/
partial def collect (directory : String) : IO FileTree := do
  let mut entries : List (FileName × FileTree) := []
  let found ← try (← IO.FS.realPath directory).readDir catch _ => pure #[]
  for entry in found do
    let name := entry.fileName
    let path := directory ++ "/" ++ name
    let data : Option IO.FS.Metadata ← try some <$> entry.path.symlinkMetadata catch _ => pure none
    let some data := data | continue
    match data.type with
    | .dir =>
      if name == ".git" then
        if let some rules ← readFile? (path ++ "/info/exclude") then
          entries := (name, FileTree.insert (.file rules) ["info", "exclude"] .empty) :: entries
      else if !skippedDirectories.contains name then
        entries := (name, ← collect path) :: entries
    | .file =>
      let file ← if isRead name then openFile path data.byteSize.toNat else pure (.file .empty)
      entries := (name, file) :: entries
    | .symlink =>
      if isRead name then
        if let some content ← readFile? path then
          entries := (name, .other (.ok content)) :: entries
    | .other => pure ()
  return .directory entries

/-- Adds the file at an absolute path, if there is one. -/
def addFile (tree : FileTree) (path : String) : IO FileTree := do
  match ← readFile? path with
  | some content => return FileTree.insert (.file content) (FileTree.steps (Path.clean path)) tree
  | none => return tree

/-- The paths of the directories above a path. -/
def above (path : String) : List String :=
  let names := (pieces '/' path).filter (· != "")
  (List.range names.length).map fun n => Path.ofSegments true (names.take n)

/-- The part of the disk that a command may look at. -/
def collectFor (root : String) (settings : Option String) : IO FileTree := do
  let below ← collect root
  let mut tree := FileTree.insert below (FileTree.steps root) .empty
  for directory in above root do
    for name in [".ignore", ".gitignore", ".git/info/exclude"] do
      tree ← addFile tree (Path.join directory name)
  if let some path := settings then tree ← addFile tree (Path.join root path)
  return tree

def environment : IO (List (String × String)) := do
  let content := (← readFile? "/proc/self/environ").getD .empty
  let text := (String.fromUTF8? content).getD ""
  return (pieces (Char.ofNat 0) text).filterMap (cutFirst? '=')

/-- What a run of a command finds, and the command with the root spelled out. -/
def contextOf (place : ProjectPlace) (overrides : Overrides) :
    IO (CommandContext × ProjectPlace) := do
  let environment ← environment
  let asked := place.root.getD "."
  let workingDirectory := (← IO.currentDir).toString
  match ← canonical? asked with
  | none => return (⟨⟨.empty, "/"⟩, environment⟩, { place with root := some asked })
  | some root =>
    let tree ← collectFor root place.settings
    match Settings.load ⟨tree, workingDirectory⟩ environment root place.settings overrides with
    | .ok { tsconfig := some path, .. } =>
      let tree ← addFile tree (Path.join root path)
      return (⟨⟨tree, workingDirectory⟩, environment⟩, { place with root := some root })
    | _ => return (⟨⟨tree, workingDirectory⟩, environment⟩, { place with root := some root })

/-- The command at a place. -/
def placed (place : ProjectPlace) : Command → Command
  | .build _ json => .build place json
  | .trace _ json start overrides => .trace place json start overrides

def placeOf : Command → ProjectPlace × Overrides
  | .build place _ => (place, ⟨none, none⟩)
  | .trace place _ _ overrides => (place, overrides)

def run (invocation : Invocation) : IO UInt32 := do
  let command := invocation.command
  let (place, overrides) := placeOf command
  let (context, place) ← contextOf place overrides
  let started ← IO.monoNanosNow
  let result ← IO.lazyPure fun _ => (placed place command).answer context Script.readScript
  match result with
  | .error failure =>
    IO.eprintln ("Error: " ++ failure.report)
    return 1
  | .ok answer =>
    let elapsed : Duration := ⟨(← IO.monoNanosNow) - started⟩
    let report := Report.ofAnswer command.json elapsed answer
    let terminal ← (← IO.getStderr).isTty
    let colors := !invocation.noColor && usesColors context.environment terminal
    for notice in report.notices do
      IO.eprintln (if colors then Report.emphasized notice else notice)
    for line in report.lines do IO.println line
    return 0

end CodeAtlas.Program

def main (arguments : List String) : IO UInt32 := do
  match CodeAtlas.Invocation.ofArguments arguments with
  | .ok invocation => CodeAtlas.Program.run invocation
  | .error fault =>
    if fault = .displayVersion then IO.println CodeAtlas.Program.version
    else if fault = .displayHelp then IO.println CodeAtlas.Program.usage
    else
      unless fault = .nothingAsked do IO.eprintln ("error: " ++ fault.message ++ "\n")
      IO.eprintln CodeAtlas.Program.usage
    return fault.exitCode.toUInt32
