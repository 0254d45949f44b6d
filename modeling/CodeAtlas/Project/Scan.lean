import CodeAtlas.Ignore.Rules
import CodeAtlas.Project.FileTree
import CodeAtlas.Source.FileIndex

/-!
# Scanning a project

The files of a project are those below its root that nothing excludes. The patterns of the project
exclude on their own; where they say nothing, the ignore files of the directories above an entry
decide, the innermost first, up to the root of the file system, and last the rules that a user has
for all projects. Directories with installed packages and with the data of version control are never
entered. What is below an excluded directory is excluded with it. The walk does as that of the
`ignore` package does; what it can not list, what is no file and files whose size is not told are
passed over.

An index holds a file under the text of its path. Names whose bytes differ may have one text, and
the file that is found last replaces the others.
-/

namespace CodeAtlas

open CodeAtlas.Ignore

def skippedDirectories : List String := ["node_modules", ".git"]

/-- The rules that hold from a directory on. -/
structure RuleLevel where
  /-- How many names lead from the root of the file system to the directory. -/
  depth : Nat
  /-- The rules of its `.ignore`. -/
  plain : List Rule
  /-- The rules of its `.gitignore`. -/
  shared : List Rule
  /-- The rules that its version control keeps to itself. -/
  personal : List Rule

def namesBytes (names : List FileName) : List UInt8 := [slash].intercalate (names.map FileName.bytes)

def pathText (names : List FileName) : String := "/".intercalate (names.map FileName.text)

namespace RuleLevel

/-- The rules of the file at the end of some names; none if it can not be read. -/
def rulesAt (tree : FileTree) (names : List String) : List Rule :=
  match names.foldlM (fun t name => t.entry name) tree >>= FileTree.content with
  | .ok content => rulesOf content
  | .error _ => []

/-- The rules that hold from a directory on. -/
def ofTree (depth : Nat) (tree : FileTree) : RuleLevel where
  depth := depth
  plain := rulesAt tree [".ignore"]
  shared := rulesAt tree [".gitignore"]
  personal := rulesAt tree [".git", "info", "exclude"]

/-- What one kind of rules says about the entry that some names lead to: the first level that says
anything decides. -/
def verdictBy (kind : RuleLevel → List Rule) (levels : List RuleLevel) (names : List FileName)
    (isDirectory : Bool) : Option Verdict :=
  levels.findSome? fun level =>
    Rule.verdict (kind level) (namesBytes (names.drop level.depth)) isDirectory

/-- What some levels, innermost first, say about an entry. The kinds of rules are asked in turn,
each at all levels. -/
def verdict (levels : List RuleLevel) (names : List FileName) (isDirectory : Bool) :
    Option Verdict :=
  (verdictBy plain levels names isDirectory).or <|
    (verdictBy shared levels names isDirectory).or (verdictBy personal levels names isDirectory)

end RuleLevel

/-- What the rules that a user has for all projects say about the entry that some names lead to. -/
abbrev UserRules := List FileName → (isDirectory : Bool) → Option Verdict

def UserRules.none : UserRules := fun _ _ => Option.none

/-- What a project excludes on its own, and the rules of its user. -/
structure Exclusions where
  /-- How many names lead from the root of the file system to that of the project. -/
  depth : Nat
  rules : List Rule
  user : UserRules

namespace Exclusions

/-- The pattern that is not well formed, and why. -/
abbrev Fault := String × GlobFault

/-- The exclusions that some patterns stand for. -/
def ofPatterns (user : UserRules) (depth : Nat) (patterns : List String) :
    Except Fault Exclusions := do
  let rules ← patterns.mapM fun pattern =>
    (Rule.ofPattern pattern).mapError fun fault => (pattern, fault)
  return ⟨depth, rules, user⟩

/-- Whether a project excludes an entry on its own. -/
def cover (x : Exclusions) (names : List FileName) (isDirectory : Bool) : Bool :=
  x.rules.any fun rule => rule.covers (namesBytes (names.drop x.depth)) isDirectory

/-- What ignore files say about an entry, and where they say nothing the user. -/
def verdict (x : Exclusions) (levels : List RuleLevel) (names : List FileName)
    (isDirectory : Bool) : Option Verdict :=
  (RuleLevel.verdict levels names isDirectory).or (x.user names isDirectory)

/-- Whether an entry is passed over, with all that is below it. The last of `names` is its own. -/
def skips (x : Exclusions) (levels : List RuleLevel) (names : List FileName) (name : FileName)
    (isDirectory : Bool) : Bool :=
  x.cover names isDirectory || x.verdict levels names isDirectory == some .ignored ||
    isDirectory && (skippedDirectories.map FileName.ofText).contains name

mutual

/-- The files at and below a place that was not passed over, by the names that lead to them. -/
def filesAt (x : Exclusions) (levels : List RuleLevel) (names : List FileName) :
    FileTree → List (List FileName × StoredFile)
  | .directory entries =>
    filesAmong x (.ofTree names.length (.directory entries) :: levels) names entries
  | tree => tree.stored?.toList.map fun file => (names, file)

/-- The files at and below some entries of a directory. -/
def filesAmong (x : Exclusions) (levels : List RuleLevel) (names : List FileName) :
    List (FileName × FileTree) → List (List FileName × StoredFile)
  | [] => []
  | (name, tree) :: rest =>
    let path := names ++ [name]
    let found :=
      if x.skips levels path name tree.isDirectory then [] else filesAt x levels path tree
    found ++ filesAmong x levels names rest

end

end Exclusions

/-- The levels of the directories that a chain of entries leads through, without the last. -/
def levelsAbove (root : FileTree) : List (String × FileTree) → List RuleLevel
  | [] => []
  | _ :: chain => .ofTree chain.length (FileTree.top root chain) :: levelsAbove root chain

/-- The index of a project. Where no directory stands at its root there are no files. -/
def scan (files : FileSystem) (root : String) (patterns : List String)
    (user : UserRules := UserRules.none) : Except Exclusions.Fault FileIndex := do
  let chain := (files.follow root).toOption.getD []
  let x ← Exclusions.ofPatterns user chain.length patterns
  match files.lookUp root with
  | .ok (.directory entries) =>
    let names := chain.reverse.map fun e => FileName.ofText e.1
    let found := x.filesAt (levelsAbove files.tree chain) names (.directory entries)
    return .ofList <| found.map fun (path, file) =>
      let inside := pathText (path.drop x.depth)
      (inside, .ofFile (Path.join root inside) file.size file.content)
  | _ => return .empty

end CodeAtlas
