/-!
# Dialects of a script

A script is a JavaScript or TypeScript text. What its grammar admits depends on the file it
stands in: whether types may be written, whether JSX may, whether the text is a declaration
file (all of it ambient) and whether it is a module.
-/

namespace CodeAtlas.Script

/-- The grammar that a script is read with. -/
structure Dialect where
  /-- Type annotations and the declarations of types are admitted. -/
  types : Bool
  /-- JSX elements are admitted among the expressions. -/
  jsx : Bool
  /-- Every declaration is ambient, as in a declaration file. -/
  ambient : Bool
  /-- The text is a module: `await` stands at its top level, `return` does not. -/
  isModule : Bool
deriving DecidableEq, Repr

namespace Dialect

/-- A plain module without types and without JSX. -/
def plain : Dialect := ⟨false, false, false, true⟩

end Dialect

end CodeAtlas.Script
