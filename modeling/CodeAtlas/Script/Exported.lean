import CodeAtlas.Script.Declared

/-!
# Exported names

The names under which a module exports something, one for each export. A module may export a
name only once; the declarations of types are overloaded, so the rule holds for scripts without
types only.
-/

namespace CodeAtlas.Script.Tree

/-- The names that a declaration after `export` declares. -/
def declaredNames (declaration : Tree) : List String :=
  match declaration with
  | node (.declarators _) declarators => declarators.flatMap fun d => boundNamesOfFirst d.parts
  | _ => (declaration.declaration?.map DeclaredSymbol.name).toList

/-- The names under which a statement of a module exports something. -/
def statementExports (statement : Tree) : List String :=
  match statement with
  | node .exportDeclaration parts => parts.flatMap declaredNames
  | node (.exportList specifiers _) _ => specifiers.map ExportSpecifier.exportedName
  | node (.exportAll name _) _ => name.toList
  | node .exportDefault _ => [NodeId.defaultName]
  | _ => []

/-- Whether some statements of a module export a name more than once. -/
def exportTwice (statements : List Tree) : Bool :=
  let names := statements.flatMap statementExports
  names.eraseDups.length != names.length

end CodeAtlas.Script.Tree
