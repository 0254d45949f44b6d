/-!
# Syntax trees

Every construct of a script is a node: a kind, and the parts of the construct in the order of
the text. A kind carries exactly what the rules about names need to know: the names that a
construct declares or mentions, and the specifiers of imports and exports. All other constructs
share the kind `form`, which tells them apart and says nothing about names.

The shape is uniform so that a rule about all constructs, such as "declarations are listed in
the order of the text, at any depth", is one recursion over nodes.
-/

namespace CodeAtlas.Script

/-- What a local name of an import stands for in the module it comes from. -/
inductive Imported where
  | named (name : String)
  | defaultExport
  | allExports
deriving DecidableEq, Repr

structure ImportSpecifier where
  localName : String
  imported : Imported
  typeOnly : Bool
deriving DecidableEq, Repr

/-- One entry of an export list: the name inside the module and the name outside. -/
structure ExportSpecifier where
  localName : String
  exportedName : String
deriving DecidableEq, Repr

/-- The keyword that opens a variable declaration. -/
inductive VariableKeyword where
  | var | letKeyword | const | using
deriving DecidableEq, Repr

/-- The sense in which an occurrence uses a name. -/
inductive Sense where
  /-- As the value of a variable, a function, a class. -/
  | value
  /-- As a type. -/
  | type
  /-- As a value inside a type, as in `typeof x`. -/
  | typeOf
  /-- As whatever it declares, as in an export list. -/
  | anything
deriving DecidableEq, Repr

/-- Constructs that neither declare a name nor mention one, nor open a scope. -/
inductive Form where
  -- statements
  | emptyStatement | expressionStatement | ifStatement | forStatement | whileStatement
  | doStatement | switchStatement | switchCase | tryStatement | throwStatement
  | returnStatement | labelled | jump | withStatement | debugger
  | exportAssignment | globalExport | externalModule
  -- expressions
  | this | super | literal | template | taggedTemplate | array | elision | object | property
  | shorthandDefault | spread | unary | update | binary | conditional | assignment | sequence
  | member | computedMember | optionalChain | nonNull | cast | instantiation | construct
  | metaProperty | privateName | parenthesized | decorator
  | heritage | classBody | classMember | enumBody
  -- JSX
  | jsxElement | jsxAttribute | jsxSpread | jsxContainer
  -- patterns and parameters
  | parameter
  -- types
  | typeParameters | typeArguments | typeName | typeOperator | typeMembers | typeMember
deriving DecidableEq, Repr

/-- Constructs that only delimit the names declared in them. -/
inductive ScopeForm where
  /-- A block, the head and body of a loop, the cases of a switch, a `catch` clause: names
  declared with `var` pass through it. -/
  | block
  /-- A static block of a class, where `var` stops. -/
  | staticBlock
  /-- The parts of a conditional type that see its inferred names. -/
  | conditional
  /-- A mapped type, which declares its key. -/
  | mapped
deriving DecidableEq, Repr

inductive Kind where
  | program
  -- modules
  | importDeclaration (source : String) (specifiers : List ImportSpecifier)
  | importAlias (name : String) (typeOnly : Bool)
  /-- An `export` before a declaration, which is the only part. -/
  | exportDeclaration
  /-- An export list; without a source its parts mention the local names. -/
  | exportList (specifiers : List ExportSpecifier) (source : Option String)
  | exportAll (name : Option String) (source : String)
  | exportDefault
  -- declarations
  | declarators (keyword : VariableKeyword)
  /-- One declarator: its pattern first, then its type and its initial value. -/
  | declarator
  | functionDeclaration (name : Option String)
  | functionExpression (name : Option String)
  | arrow
  /-- The head of a type of functions: parameters and result without a body. -/
  | signature
  | parameters
  | functionBody
  | classDeclaration (name : Option String)
  | classExpression (name : Option String)
  /-- All of a class but its decorators; `selfName` is the name of a class expression, which is
  visible only here. -/
  | classScope (selfName : Option String)
  | enumDeclaration (name : String)
  | enumMember (name : Option String)
  | interfaceDeclaration (name : String)
  | typeAlias (name : String)
  /-- A namespace or an ambient module; only the former has a name in the program. -/
  | namespaceDeclaration (name : Option String)
  | typeParameter (name : String)
  | inferredType (name : String)
  | scope (form : ScopeForm)
  -- patterns
  | binding (name : String)
  | objectPattern
  | arrayPattern
  /-- A pattern, which is the first part, with a default value. -/
  | defaulted
  | restPattern
  /-- A property of an object pattern; its pattern is the last part. -/
  | patternProperty
  -- mentions
  | reference (name : String) (sense : Sense)
  | stringLiteral (value : String)
  /-- A dynamic import; the source is the first part. -/
  | importCall
  /-- A call: the callee is the first part and the arguments are the last. -/
  | call
  | arguments
  | form (form : Form)
deriving Repr

/-- A construct and its parts. -/
inductive Tree where
  | node (kind : Kind) (parts : List Tree)

namespace Tree

def kind : Tree → Kind
  | node k _ => k

def parts : Tree → List Tree
  | node _ ps => ps

/-- A node of a construct without names. -/
abbrev plain (f : Form) (parts : List Tree) : Tree := node (.form f) parts

/-- A construct without parts and without names. -/
abbrev leaf (f : Form) : Tree := node (.form f) []

end Tree

end CodeAtlas.Script
