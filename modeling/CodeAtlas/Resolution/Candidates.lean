import CodeAtlas.Path.Clean
import CodeAtlas.Text.PairOrder

/-!
# Candidate files

A specifier may leave out the extension of a script, or name a directory whose index is meant.
`candidates` lists the files it may mean, in the order in which they are tried.
-/

namespace CodeAtlas.Resolution

open CodeAtlas.Text

/-- The extensions that a specifier may leave out, in the order of trial. -/
def sourceExtensions : List String := ["ts", "tsx", "js", "jsx"]

/-- `specifier` without the given extension, unless nothing but a directory would remain. -/
def dropExtension? (specifier extension : String) : Option String := do
  let stem ← dropSuffix? "." (← dropSuffix? extension specifier)
  if stem = "" || endsWith '/' stem then none else some stem

/-- `specifier` without the extension of a script. -/
def stripSourceExtension (specifier : String) : String :=
  (sourceExtensions.findSome? (dropExtension? specifier)).getD specifier

/-- The files that `stem` may mean as it stands or with an extension. -/
def variants (stem : String) : List String :=
  (if stem = "" then [] else [stem]) ++ sourceExtensions.map fun e => stem ++ "." ++ e

def indexOf (base : String) : String := if base = "" then "index" else base ++ "/index"

/-- The files that `base` may mean, in the order of trial. -/
def candidates (base : String) : List String := variants base ++ variants (indexOf base)

/-- The first candidate for `base` that is known. -/
def probe (known : TextSet) (base : String) : Option String :=
  (candidates base).find? known.contains

end CodeAtlas.Resolution
