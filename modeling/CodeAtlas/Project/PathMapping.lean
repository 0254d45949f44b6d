import CodeAtlas.Json.Relaxed
import CodeAtlas.Project.FileTree
import CodeAtlas.Resolution.Aliases

/-!
# Aliases from path mappings

A compiler configuration may map patterns of specifiers to patterns of paths. A mapping whose
pattern and target both end in `/*` is an alias: what precedes the star of the pattern stands for
the directory that precedes the star of the target. Anything else in the configuration is passed
over, and one that can not be read yields no aliases.
-/

namespace CodeAtlas

open CodeAtlas.Json CodeAtlas.Resolution CodeAtlas.Text

/-- The part of a compiler configuration that aliases come from. -/
structure PathMapping where
  /-- The directory that targets are relative to, itself relative to the configuration. -/
  base : Option String
  /-- The targets of each pattern. -/
  paths : TextMap (List String)

namespace PathMapping

/-- A configuration without mappings. -/
def empty : PathMapping := ⟨none, ∅⟩

/-- The only value of a member, if there is one; no answer if the member is repeated. -/
def single (members : List (String × Value)) (key : String) : Option (Option Value) :=
  match members.filter fun m => m.1 == key with
  | [] => some none
  | [m] => some (some m.2)
  | _ => none

/-- The base directory, which may be null. -/
def readBase : Value → Option (Option String)
  | .null => some none
  | value => value.text?.map some

/-- The targets of each pattern; the last mapping of a pattern counts. -/
def readPaths (value : Value) : Option (TextMap (List String)) := do
  let members ← (← value.members?).mapM fun (pattern, targets) => targets.texts?.map (pattern, ·)
  return Value.lastByKey members

/-- The options of the compiler: an object, or the list of its values. -/
def readOptions : Value → Option PathMapping
  | .list [base] => do return ⟨← readBase base, ∅⟩
  | .list [base, paths] => do return ⟨← readBase base, ← readPaths paths⟩
  | value => do
    let members ← value.members?
    let base ← match ← single members "baseUrl" with
      | some value => readBase value
      | none => some none
    let paths ← match ← single members "paths" with
      | some value => readPaths value
      | none => some ∅
    return ⟨base, paths⟩

/-- The mapping in a compiler configuration: an object, or the list of its values. -/
def ofValue : Value → Option PathMapping
  | .list [] => some empty
  | .list [options] => readOptions options
  | value => do
    match ← single (← value.members?) "compilerOptions" with
    | some options => readOptions options
    | none => some empty

def ofText (text : String) : Option PathMapping := (readRelaxed text).bind ofValue

/-- The alias that one mapping stands for, if any: `base` is the directory of the targets, and
targets outside `root` are passed over. -/
def aliasOf (root base pattern : String) (targets : List String) : Option (String × String) := do
  let start ← dropSuffix? "/*" pattern
  if start = "" then none
  let target ← targets.findSome? fun t => dropSuffix? "/*" t
  let inside ← Path.relativeTo? root (Path.clean (Path.join base target))
  if inside = "" then none else some (start, inside)

def aliases (mapping : PathMapping) (root directory : String) : AliasMap :=
  let base := Path.join directory (mapping.base.getD ".")
  Value.lastByKey (mapping.paths.toList.filterMap fun (pattern, targets) =>
    aliasOf root base pattern targets)

end PathMapping

/-- The name of a compiler configuration in the root of a project. -/
def defaultMappingName : String := "tsconfig.json"

/-- The aliases that the compiler configuration of a project yields. Without a path the one in the
root is taken. -/
def discoverAliases (files : FileSystem) (root : String) (configuration : Option String) :
    AliasMap :=
  let path := Path.join root (configuration.getD defaultMappingName)
  let text := match files.read path with
    | .ok bytes => String.fromUTF8? bytes
    | .error _ => none
  match text.bind PathMapping.ofText with
  | some mapping => mapping.aliases root (Path.parent path)
  | none => ∅

end CodeAtlas
