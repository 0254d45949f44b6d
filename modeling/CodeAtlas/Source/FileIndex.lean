import CodeAtlas.Failure
import CodeAtlas.Source.Kind
import CodeAtlas.Text.PairOrder

/-!
# The file index

The files of a project by their paths, each with its size and with its content as far as it can
be read. The index does not read: it holds what a reading would yield.
-/

namespace CodeAtlas

open CodeAtlas.Text

/-- The content of a file, and the size that was seen when the file was found. -/
structure Source where
  size : Nat
  bytes : Except Failure ByteArray
  text : Except Failure String

namespace Source

/-- A content that is held as a text. -/
def ofText (text : String) : Source := ⟨text.utf8ByteSize, .ok text.toUTF8, .ok text⟩

/-- The text of bytes that were read from the file `path`. -/
def decode (path : String) (bytes : ByteArray) : Except Failure String :=
  match String.fromUTF8? bytes with
  | some text => .ok text
  | none => .error (.invalidUtf8 path)

/-- The content of a file on disk, as far as the system hands it out. -/
def ofFile (path : String) (size : Nat) (content : Except IoCause ByteArray) : Source :=
  match content with
  | .ok bytes => ⟨size, .ok bytes, decode path bytes⟩
  | .error cause => ⟨size, .error (.io cause), .error (.io cause)⟩

/-- A content that can not be read. -/
def unreadable (size : Nat) (failure : Failure) : Source :=
  ⟨size, .error failure, .error failure⟩

end Source

structure FileEntry where
  path : String
  source : Source

namespace FileEntry

def size (e : FileEntry) : Nat := e.source.size

def kind (e : FileEntry) : SourceKind := .ofPath e.path

end FileEntry

/-- The form of a path as a key of an index: with slashes only, and without one leading `./`. -/
def indexPath (path : String) : String :=
  let slashes := replaceChar '\\' '/' path
  (dropPrefix? "./" slashes).getD slashes

/-- Files by path. -/
structure FileIndex where
  files : TextMap FileEntry

namespace FileIndex

def empty : FileIndex := ⟨∅⟩

/-- The index with a file under the key of `path`, in place of one that was there. -/
def insert (index : FileIndex) (path : String) (source : Source) : FileIndex :=
  let key := indexPath path
  ⟨index.files.insert key ⟨key, source⟩⟩

def ofList (files : List (String × Source)) : FileIndex :=
  files.foldl (fun index (path, source) => index.insert path source) empty

def get? (index : FileIndex) (path : String) : Option FileEntry := index.files[path]?

def contains (index : FileIndex) (path : String) : Bool := index.files.contains path

/-- The files in the order of their paths. -/
def entries (index : FileIndex) : List FileEntry := index.files.values

def paths (index : FileIndex) : List String := index.files.keys

def size (index : FileIndex) : Nat := index.files.size

def totalSize (index : FileIndex) : Nat := (index.entries.map FileEntry.size).foldr (· + ·) 0

end FileIndex

end CodeAtlas
