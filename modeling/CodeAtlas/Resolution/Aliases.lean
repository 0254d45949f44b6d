import CodeAtlas.Failure
import CodeAtlas.Path.Clean
import CodeAtlas.Text.PairOrder

/-!
# Aliases

An alias lets specifiers with a certain beginning stand for paths below a directory. A table of
aliases is made from a map of them: it is sorted so that the longest alias comes first, and it
knows the package roots, which are the directories that hold the targets.
-/

namespace CodeAtlas.Resolution

open CodeAtlas.Text

/-- Targets by alias. -/
abbrev AliasMap := TextMap String

/-- Adds the aliases of `other` that `map` lacks. -/
def AliasMap.mergeMissing (map other : AliasMap) : AliasMap :=
  other.foldl (fun m start target => m.insertIfNew start target) map

/-- An alias that is ready for matching: its target is normal and not empty. -/
structure Alias where
  key : String
  target : String
deriving DecidableEq, Repr

namespace Alias

/-- What follows the alias in a specifier that it matches. The alias ends at a slash of the
specifier, at its end, or at a slash of its own. -/
def rest? (a : Alias) (specifier : String) : Option String := do
  let rest ← dropPrefix? a.key specifier
  if endsWith '/' a.key || rest = "" then return rest
  dropPrefix? "/" rest

/-- The directory that holds the target. -/
def packageRoot? (a : Alias) : Option String := do
  let (root, _) ← cutLast? '/' a.target
  if root = "" then none else some root

/-- The path that a specifier with this alias stands for. -/
def apply (a : Alias) (rest : String) : String :=
  Path.normalize (if rest = "" then a.target else a.target ++ "/" ++ rest)

end Alias

/-- Aliases, longest first, and the package roots, longest first and without repetition. -/
structure AliasTable where
  aliases : List Alias
  packageRoots : List String
deriving DecidableEq, Repr

namespace AliasTable

/-- Longer texts come first. -/
def longerFirst (a b : String) : Bool := b.utf8ByteSize ≤ a.utf8ByteSize

/-- Longer roots come first, roots of one length in the order of texts. -/
def rootOrder (a b : String) : Bool :=
  b.utf8ByteSize < a.utf8ByteSize || (a.utf8ByteSize = b.utf8ByteSize && (compare a b).isLE)

/-- Drops texts that equal the one before. -/
def dropRepeats : List String → List String
  | [] => []
  | [a] => [a]
  | a :: b :: r => if a = b then dropRepeats (b :: r) else a :: dropRepeats (b :: r)

/-- The alias of one entry of a map. -/
def checkAlias (key target : String) : Except Failure Alias :=
  if key = "" then .error (.invalidConfig (.emptyPrefix target))
  else
    let normal := Path.normalize (trimStartChar '/' target)
    if normal = "" then .error (.invalidConfig (.emptyTarget key))
    else .ok ⟨key, normal⟩

/-- The table of a map, unless one of its aliases makes no sense. -/
def ofMap (map : AliasMap) : Except Failure AliasTable := do
  let aliases ← map.toList.mapM fun (key, target) => checkAlias key target
  let sorted := aliases.mergeSort fun a b => longerFirst a.key b.key
  let roots := (sorted.filterMap Alias.packageRoot?).mergeSort rootOrder
  return ⟨sorted, dropRepeats roots⟩

/-- The path that a specifier stands for by the longest alias that matches. -/
def substitute (t : AliasTable) (specifier : String) : Option String :=
  t.aliases.findSome? fun a => (a.rest? specifier).map a.apply

/-- Whether `path` is `root` or lies below it. -/
def isWithin (root path : String) : Bool :=
  match dropPrefix? root path with
  | some rest => rest = "" || beginsWith '/' rest
  | none => false

/-- The longest package root that holds `path`. -/
def packageRootOf (t : AliasTable) (path : String) : Option String :=
  t.packageRoots.find? fun root => isWithin root path

end AliasTable

end CodeAtlas.Resolution
