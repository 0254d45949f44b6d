import CodeAtlas.Graph.Node
import CodeAtlas.Script.Tree

/-!
# Declared symbols

The declarations of a script that become nodes of the graph. Variables count only at the level of
the module; functions, classes, enumerations, interfaces and type aliases count at any depth, in
the order of the text. Function and class expressions declare nothing.
-/

namespace CodeAtlas.Script

/-- A name that a script declares. -/
structure DeclaredSymbol where
  name : String
  kind : SymbolKind
deriving DecidableEq, Repr

namespace Tree

mutual

/-- The names that a pattern binds, in the order of the text. Keys and default values bind
nothing. -/
def boundNames : Tree → List String
  | node k parts =>
    match k with
    | .binding name => [name]
    | .objectPattern | .arrayPattern | .restPattern => boundNamesOfAll parts
    | .patternProperty => boundNamesOfLast parts
    | .defaulted => boundNamesOfFirst parts
    | _ => []

def boundNamesOfAll : List Tree → List String
  | [] => []
  | t :: ts => boundNames t ++ boundNamesOfAll ts

def boundNamesOfLast : List Tree → List String
  | [] => []
  | [t] => boundNames t
  | _ :: ts => boundNamesOfLast ts

def boundNamesOfFirst : List Tree → List String
  | [] => []
  | t :: _ => boundNames t

end

/-- The declarators of a variable declaration that stands as a statement of a module, exported or
not. -/
def moduleDeclarators : Tree → List Tree
  | node (.declarators _) declarators => declarators
  | node .exportDeclaration [node (.declarators _) declarators] => declarators
  | _ => []

/-- The variables of a statement of a module, or the default export it makes. -/
def moduleSymbols (statement : Tree) : List DeclaredSymbol :=
  match statement with
  | node .exportDefault _ => [⟨NodeId.defaultName, .defaultExport⟩]
  | _ =>
    (statement.moduleDeclarators.flatMap fun d => boundNamesOfFirst d.parts).map
      (⟨·, .variableName⟩)

/-- The declaration that a node is, if it counts at any depth. -/
def declaration? : Tree → Option DeclaredSymbol
  | node k _ =>
    match k with
    | .functionDeclaration (some name) => some ⟨name, .function⟩
    | .classDeclaration (some name) => some ⟨name, .classType⟩
    | .enumDeclaration name => some ⟨name, .enumeration⟩
    | .interfaceDeclaration name => some ⟨name, .interface⟩
    | .typeAlias name => some ⟨name, .typeAlias⟩
    | _ => none

mutual

/-- All nodes of a tree, each before its parts. -/
def nodes : Tree → List Tree
  | node k parts => node k parts :: nodesOfAll parts

def nodesOfAll : List Tree → List Tree
  | [] => []
  | t :: ts => nodes t ++ nodesOfAll ts

end

/-- The declarations of a tree that count at any depth. -/
def nestedDeclarations (t : Tree) : List DeclaredSymbol := t.nodes.filterMap declaration?

def declaredSymbols (program : Tree) : List DeclaredSymbol :=
  program.parts.flatMap moduleSymbols ++ program.nestedDeclarations

/-- The specifier of a dynamic import or of a call of `require`, if it is a plain string. -/
def dynamicSpecifier? : Tree → Option String
  | node .importCall (node (.stringLiteral source) _ :: _) => some source
  | node .call parts =>
    match parts.head?, parts.getLast? with
    | some (node (.reference "require" _) _),
      some (node .arguments (node (.stringLiteral source) _ :: _)) => some source
    | _, _ => none
  | _ => none

/-- The specifiers of the dynamic imports of a tree, a call before its arguments. -/
def dynamicSpecifiers (t : Tree) : List String := t.nodes.filterMap dynamicSpecifier?

end Tree

end CodeAtlas.Script
