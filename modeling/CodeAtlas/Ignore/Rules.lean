import CodeAtlas.Ignore.Glob
import CodeAtlas.Text.Blank
import CodeAtlas.Text.Cut

/-!
# Ignore rules

The rules of an ignore file. Each line but blank ones and comments is a rule: a glob, which may be
bound to the directory of the file by a slash and to directories by a slash at its end, and which
ignores what it covers or, after an exclamation mark, includes it again. The last rule that covers
a path decides. Lines are read as the `ignore` package reads them, which passes over those that it
can not make a rule of, and a pattern that is no line of a file is read as its overrides are.
-/

namespace CodeAtlas.Ignore

open CodeAtlas.Text

structure Rule where
  glob : Glob
  /-- The rule includes what it covers instead of ignoring it. -/
  includes : Bool
  onlyDirectories : Bool

/-- What some rules say about a path. -/
inductive Verdict where
  | ignored | included
deriving DecidableEq, Repr

namespace Rule

def covers (rule : Rule) (path : List UInt8) (isDirectory : Bool) : Bool :=
  (isDirectory || !rule.onlyDirectories) && rule.glob.admits path

/-- What the last rule that covers a path says about it. -/
def verdict (rules : List Rule) (path : List UInt8) (isDirectory : Bool) : Option Verdict :=
  (rules.reverse.find? fun rule => rule.covers path isDirectory).map fun rule =>
    if rule.includes then .included else .ignored

/-! ## Reading -/

/-- The text of a glob for the body of a rule without its outer slashes. A body without a slash
covers names in all directories, and a double star at the end leaves out the directory itself. -/
def globText (bound : Bool) (body : String) : String :=
  let anywhere := !bound && !hasChar '/' body && body != "**"
  let text := if anywhere then "**/" ++ body else body
  if (dropSuffix? "/**" text).isSome then text ++ "/*" else text

/-- The rule with a given body: what follows the mark in front of it. -/
def ofBody (openClasses includes : Bool) (body : String) : Except GlobFault Rule := do
  let (bound, body) := match dropPrefix? "/" body with
    | some rest => (true, rest)
    | none => (false, body)
  let (onlyDirectories, body) := match dropSuffix? "/" body with
    | some rest => (true, (dropSuffix? "\\" rest).getD rest)
    | none => (false, body)
  return ⟨← Glob.ofText openClasses (globText bound body), includes, onlyDirectories⟩

/-- A line without the blanks at its end, unless the last of them is escaped. -/
def trimLine (line : String) : String :=
  if (dropSuffix? "\\ " line).isSome then line
  else String.ofList (line.toList.reverse.dropWhile isBlank).reverse

/-- The rule of a line of an ignore file, if it has one. A rule that is not well formed counts for
nothing. -/
def ofLine? (line : String) : Option Rule :=
  if beginsWith '#' line then none
  else
    let line := trimLine line
    if line = "" then none
    else
      let (includes, body) :=
        match dropPrefix? "!" line with
        | some body => (true, body)
        | none =>
          if (dropPrefix? "\\!" line).isSome || (dropPrefix? "\\#" line).isSome then
            (false, String.ofList (line.toList.drop 1))
          else (false, line)
      (ofBody true includes body).toOption

/-- The rule that excludes what a pattern covers. -/
def ofPattern (pattern : String) : Except GlobFault Rule := ofBody false false (trimLine pattern)

end Rule

/-! ## Ignore files -/

/-- The lines of a file without their ends: a line feed, perhaps with a carriage return before
it. -/
def byteLines : List UInt8 → List (List UInt8)
  | [] => []
  | b :: r =>
    if b = 10 then [] :: byteLines r
    else
      match byteLines r with
      | [] => [[b]]
      | line :: lines =>
        if b = 13 && r.head? == some 10 then [] :: lines else (b :: line) :: lines

/-- The texts of some lines, up to the first that has none. -/
def lineTexts : List (List UInt8) → List String
  | [] => []
  | line :: lines =>
    match String.fromUTF8? ⟨line.toArray⟩ with
    | some text => text :: lineTexts lines
    | none => []

/-- The rules of an ignore file, which may begin with a byte order mark. -/
def rulesOf (content : ByteArray) : List Rule :=
  match lineTexts (byteLines content.toList) with
  | [] => []
  | first :: rest =>
    (trimStartChar (Char.ofNat 0xFEFF) first :: rest).filterMap Rule.ofLine?

end CodeAtlas.Ignore
