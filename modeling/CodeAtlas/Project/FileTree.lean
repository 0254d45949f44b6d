import CodeAtlas.Failure
import CodeAtlas.Path.Clean
import CodeAtlas.Text.Bytes

/-!
# File trees

A file tree is what a file system holds at one moment: files with their bytes, directories with
named entries, and what is neither. Names are bytes; the parts of a path are names through their
UTF-8. Paths are looked up in a tree as a system does it, segment by segment, so that a path through
a file is no path even if it turns back. A link is only known by what opening it yields: no path
leads through one.
-/

namespace CodeAtlas

/-- The name of an entry of a directory. -/
structure FileName where
  bytes : List UInt8
deriving DecidableEq

namespace FileName

/-- The name that a text spells. -/
def ofText (text : String) : FileName := ⟨Text.bytesOf text⟩

instance : Coe String FileName := ⟨ofText⟩

/-- The text of a name, with replacements where it spells none. -/
def text (name : FileName) : String := Text.ofBytes name.bytes

end FileName

/-- What stands at a place of a file system. -/
inductive FileTree where
  | file (content : ByteArray)
  | directory (entries : List (FileName × FileTree))
  /-- A file whose content the system keeps back. It may still tell the size. -/
  | sealedFile (size : Option Nat) (cause : IoCause)
  /-- A directory that the system neither lists nor enters. -/
  | sealedDirectory (cause : IoCause)
  /-- Neither a file nor a directory, such as a link or a device: what opening it yields. -/
  | other (opened : Except IoCause ByteArray)

/-- A file as a walk finds it: the size that the system tells, and what reading yields. -/
structure StoredFile where
  size : Nat
  content : Except IoCause ByteArray

namespace FileTree

def empty : FileTree := directory []

def isDirectory : FileTree → Bool
  | directory _ | sealedDirectory _ => true
  | _ => false

/-- The file at a place, if one is there and the system tells its size. -/
def stored? : FileTree → Option StoredFile
  | file content => some ⟨content.size, .ok content⟩
  | sealedFile (some size) cause => some ⟨size, .error cause⟩
  | _ => none

/-- What reading yields. -/
def content : FileTree → Except IoCause ByteArray
  | file content => .ok content
  | directory _ => .error .isDirectory
  | sealedFile _ cause | sealedDirectory cause => .error cause
  | other opened => opened

/-- The entries that a path can go on with. -/
def entries : FileTree → Except IoCause (List (FileName × FileTree))
  | directory entries => .ok entries
  | sealedDirectory cause => .error cause
  | _ => .error .notDirectory

def entry (name : FileName) (tree : FileTree) : Except IoCause FileTree := do
  match (← tree.entries).lookup name with
  | some found => return found
  | none => throw .notFound

/-- The tree with `node` at the place that some names lead to. Directories on the way are made. -/
def insert (node : FileTree) : List String → FileTree → FileTree
  | [], _ => node
  | name :: names, tree =>
    let name : FileName := name
    let entries := tree.entries.toOption.getD []
    let inner := insert node names ((entries.lookup name).getD empty)
    directory (entries.filter (fun e => e.1 != name) ++ [(name, inner)])

/-- Adds an empty directory, unless something stands there. -/
def insertDirectory (names : List String) (tree : FileTree) : FileTree :=
  match names.foldlM (fun t name => t.entry name) tree with
  | .ok _ => tree
  | .error _ => insert empty names tree

/-! ## Looking up paths -/

/-- The steps of a path: its names, `.` and `..`. A slash at the end asks for a directory, which
is what `.` does. -/
def steps (path : String) : List String :=
  let names := (Text.pieces '/' path).filter (· != "")
  if Text.endsWith '/' path then names ++ ["."] else names

/-- The tree at the end of a chain of entries from the root, the last of which comes first. -/
def top (root : FileTree) : List (String × FileTree) → FileTree
  | [] => root
  | (_, tree) :: _ => tree

/-- Takes a step from the end of a chain of entries. -/
def step (root : FileTree) (chain : List (String × FileTree)) (name : String) :
    Except IoCause (List (String × FileTree)) := do
  let here := top root chain
  if name = "." || name = ".." then
    let _ ← here.entries
    return if name = "." then chain else chain.tail
  return (name, ← here.entry name) :: chain

/-- The chain of entries that an absolute path leads through. -/
def follow (root : FileTree) (path : String) : Except IoCause (List (String × FileTree)) :=
  if path = "" then .error .notFound else (steps path).foldlM (step root) []

end FileTree

/-- A file system: its tree, and the directory that relative paths start from. -/
structure FileSystem where
  tree : FileTree
  workingDirectory : String

namespace FileSystem

/-- The chain of entries that a path leads through. -/
def follow (s : FileSystem) (path : String) : Except IoCause (List (String × FileTree)) :=
  if path = "" then .error .notFound
  else s.tree.follow (Path.join s.workingDirectory path)

def lookUp (s : FileSystem) (path : String) : Except IoCause FileTree :=
  (s.follow path).map s.tree.top

/-- The absolute and clean path of what stands at a path. -/
def canonical (s : FileSystem) (path : String) : Except IoCause String :=
  (s.follow path).map fun chain => Path.ofSegments true (chain.reverse.map (·.1))

def isDirectory (s : FileSystem) (path : String) : Bool :=
  match s.lookUp path with
  | .ok tree => tree.isDirectory
  | .error _ => false

/-- The bytes of the file at a path. -/
def read (s : FileSystem) (path : String) : Except IoCause ByteArray := do
  (← s.lookUp path).content

end FileSystem

end CodeAtlas
