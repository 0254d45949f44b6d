import CodeAtlas.Path.Clean
import CodeAtlas.Script.Dialect

/-!
# Kinds of source files

The kind of a file is read off the extension of its name, and only scripts are parsed.
-/

namespace CodeAtlas

/-- What a file holds, as its extension tells. -/
inductive SourceKind where
  | javaScript | typeScript | jsx | tsx | json | css | unknown
deriving DecidableEq, Repr

namespace SourceKind

def ofExtension : String → SourceKind
  | "js" | "mjs" | "cjs" => javaScript
  | "ts" | "mts" | "cts" => typeScript
  | "jsx" => jsx
  | "tsx" => tsx
  | "json" => json
  | "css" => css
  | _ => unknown

def ofPath (path : String) : SourceKind :=
  match Path.extension? path with
  | some extension => ofExtension extension
  | none => unknown

def isScript : SourceKind → Bool
  | javaScript | typeScript | jsx | tsx => true
  | json | css | unknown => false

/-- The name under which the kind is shown. -/
def name : SourceKind → String
  | javaScript => "JavaScript"
  | typeScript => "TypeScript"
  | jsx => "Jsx"
  | tsx => "Tsx"
  | json => "Json"
  | css => "Css"
  | unknown => "Unknown"

end SourceKind

namespace Script.Dialect

/-- The grammar of the file `path`. A declaration file has `d` among the last three parts of its
name, and `cjs` marks a script that is no module. -/
def ofPath (path : String) : Dialect :=
  let nameParts := Text.pieces '.' ((Path.fileName? path).getD "")
  let isDeclaration := (nameParts.reverse.take 3).contains "d"
  match SourceKind.ofPath path with
  | .javaScript => ⟨false, true, false, nameParts.getLast? != some "cjs"⟩
  | .typeScript => ⟨true, false, isDeclaration, true⟩
  | .jsx => ⟨false, true, false, true⟩
  | .tsx => ⟨true, true, false, true⟩
  | _ => plain

end Script.Dialect

end CodeAtlas
