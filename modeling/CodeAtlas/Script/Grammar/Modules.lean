import CodeAtlas.Script.Exported
import CodeAtlas.Script.Grammar.Statements

/-!
# Imports, exports and whole scripts

The declarations by which modules are tied together, the statement that joins all others, and
the whole grammar: `grammar n` reads constructs nested at most `n` deep.
-/

namespace CodeAtlas.Script.Reading

variable (self : Grammar)

/-! ## Imports -/

/-- A name in an import or export list: its text, and whether it is a string or reserved. -/
def moduleName : Reading (String × Bool) := do
  match ← token with
  | .word name escaped => advance; return (name, !escaped && reservedWords.contains name)
  | .string value => advance; return (value, true)
  | _ => failure

def isModuleName : Reading Bool := do
  match ← token with
  | .word .. | .string _ => return true
  | _ => return false

/-- One entry of an import or export list: the two names, whether each of them can not name a
variable, and whether the entry is for types alone. The word `type` is a mark of types unless the
names around it show that it is a name itself. -/
def listEntry : Reading ((String × Bool) × (String × Bool) × Bool) := do
  let rename (first : String × Bool) : Reading ((String × Bool) × (String × Bool)) := do
    if ← eatWord "as" then return (first, ← moduleName)
    return (first, first)
  if (← inTypes) && (← isWord "type") then
    let marksType ← lookahead do
      advance
      if !(← isModuleName) then return false
      if ← isWord "as" then
        -- `type as`, `type as x` and `type as as x`
        advance
        if ← isWord "as" then
          advance
          return ← isModuleName
        return !(← isModuleName)
      return true
    if marksType then
      advance
      let (a, b) ← rename (← moduleName)
      return (a, b, true)
  let (a, b) ← rename (← moduleName)
  return (a, b, false)

def importList (typeOnly : Bool) : Reading (List ImportSpecifier) := do
  expectMark "\x7b"
  let items ← listUntil (isMark "\x7d") do
    let ((imported, _), (localName, unusable), ofTypes) ← listEntry
    if unusable then failure
    return ⟨localName, .named imported, typeOnly || ofTypes⟩
  expectMark "\x7d"
  return items

def importAll (typeOnly : Bool) : Reading (List ImportSpecifier) := do
  expectMark "*"
  expectWord "as"
  return [⟨← identifier, .allExports, typeOnly⟩]

/-- The attributes at the end of an import or export. -/
def attributesHere : Reading Unit := do
  if (← isWord "with") || ((← isWord "assert") && !(← afterLineEnd)) then
    advance
    importAttributes

/-- The specifier after `from`, and the end of the declaration. -/
def fromClause : Reading String := do
  expectWord "from"
  let source ← stringValue
  attributesHere
  endStatement
  return source

/-- What an import with `=` stands for. -/
def aliasTarget : Reading Tree := do
  if ← isWord "require" <&&> lookahead (do advance; isMark "(") then
    advance
    advance
    let _ ← stringValue
    expectMark ")"
    return .leaf .externalModule
  typeName .anything

/-- The local names of an import that begins with a name. -/
def importNames (typeOnly : Bool) : Reading (List ImportSpecifier) := do
  if ← isMark "\x7b" then return ← importList typeOnly
  if ← isMark "*" then return ← importAll typeOnly
  let first : ImportSpecifier := ⟨← identifier, .defaultExport, typeOnly⟩
  if ← eatMark "," then
    if ← isMark "*" then return first :: (← importAll typeOnly)
    return first :: (← importList typeOnly)
  return [first]

/-- Drops the word `type`, `defer` or `source` after `import`, where it is no name; the result
tells whether it was `type`. -/
def importMark : Reading Bool := do
  let isPhase ← isAnyWord ["defer", "source"]
  let isType ← if ← inTypes then isWord "type" else pure false
  unless isPhase || isType do return false
  let isName ← lookahead do
    let onlyAll ← isWord "defer"
    advance
    if ← isAnyMark [",", "="] then return true
    if ← isWord "from" then
      -- `import type from 'x'` names `type`, `import type from from 'x'` does not
      advance
      return !(← isWord "from") && !(isType && (← isMark "="))
    if isType then return !((← isIdentifier) || (← isAnyMark ["\x7b", "*"]))
    if onlyAll then return !(← isMark "*")
    return !(← isIdentifier)
  if isName then return false
  advance
  return isType

def importDeclaration : Reading Tree := do
  expectWord "import"
  match ← token with
  | .string source =>
    advance
    attributesHere
    endStatement
    return .node (.importDeclaration source []) []
  | _ =>
    let typeOnly ← importMark
    if ← inTypes <&&> isIdentifier <&&> lookahead (do advance; isMark "=") then
      let name ← identifier
      expectMark "="
      let target ← aliasTarget
      endStatement
      return .node (.importAlias name typeOnly) [target]
    let specifiers ← importNames typeOnly
    return .node (.importDeclaration (← fromClause) specifiers) []

/-! ## Exports -/

/-- An export list in its braces, with the source it may have. -/
def exportList (typeOnly : Bool) : Reading Tree := do
  expectMark "\x7b"
  let entries ← listUntil (isMark "\x7d") listEntry
  expectMark "\x7d"
  let specifiers := entries.map fun ((a, _), (b, _), _) => ExportSpecifier.mk a b
  if ← isWord "from" then
    return .node (.exportList specifiers (some (← fromClause))) []
  endStatement
  for ((_, unusable), _) in entries do
    if unusable then fault
  let mentions := entries.map fun ((a, _), _, ofTypes) =>
    Tree.node (.reference a (if typeOnly || ofTypes then .type else .anything)) []
  return .node (.exportList specifiers none) mentions

def exportAll : Reading Tree := do
  expectMark "*"
  let name ← if ← eatWord "as" then (do return some (← moduleName).1) else pure none
  return .node (.exportAll name (← fromClause)) []

def exportDefault (marks : List Tree) : Reading Tree := do
  let part ← match ← token with
    | .word "function" false => functionDeclaration self false true
    | .word "class" false => classDeclaration self marks
    | .mark "@" =>
      let marks ← decorators self
      let _ ← eatWord "abstract"
      classDeclaration self marks
    | _ =>
      if ← isWord "async" then
        if ← lookahead (do advance; return !(← afterLineEnd) && (← isWord "function")) then
          advance
          return .node .exportDefault [← functionDeclaration self true true]
      if ← inTypes then
        if ← isWord "abstract" then
          if ← lookahead (do advance; return !(← afterLineEnd) && (← isWord "class")) then
            advance
            return .node .exportDefault [← classDeclaration self marks]
        if ← isWord "interface" then
          if ← lookahead (do advance; return !(← afterLineEnd) && (← isIdentifier)) then
            return .node .exportDefault [← interfaceDeclaration self]
      let value ← withIn (self (.assignment true))
      endStatement
      let value := match value with
        | .node (.reference name .value) parts => Tree.node (.reference name .anything) parts
        | other => other
      pure value
  return .node .exportDefault [part]

def exportDeclaration (marks : List Tree) : Reading Tree := do
  expectWord "export"
  match ← token with
  | .mark "*" => exportAll
  | .mark "\x7b" => exportList false
  | .mark "=" =>
    unless ← inTypes do failure
    advance
    let value ← withIn (self (.assignment true))
    endStatement
    return .plain .exportAssignment [value]
  | .word "default" false => advance; exportDefault self marks
  | .word "import" false =>
    return .node .exportDeclaration [← importDeclaration]
  | _ =>
    if ← inTypes then
      if ← isWord "as" then
        if ← lookahead (do advance; isWord "namespace") then
          advance
          advance
          let _ ← identifier
          endStatement
          return .leaf .globalExport
      if ← isWord "type" then
        if ← lookahead (do advance; isAnyMark ["\x7b", "*"]) then
          advance
          if ← isMark "*" then return ← exportAll
          return ← exportList true
    return .node .exportDeclaration [← modifiedDeclaration self marks]

/-! ## Statements -/

def decoratedStatement : Reading Tree := do
  let marks ← decorators self
  if ← isWord "export" then return ← exportDeclaration self marks
  let _ ← declarationModifiers
  classDeclaration self marks

def statement (single : Bool) : Reading Tree := do
  match ← token with
  | .mark "\x7b" => block self
  | .mark ";" => advance; return .leaf .emptyStatement
  | .mark "@" => decoratedStatement self
  | .word name false =>
    if let some tree ← keywordStatement? self name then return tree
    match name with
    | "class" => classDeclaration self []
    | "function" => functionDeclaration self false false
    | "export" => exportDeclaration self []
    | "var" => variableStatement self .var
    | "const" => declaration self []
    | "let" =>
      if ← isLetDeclaration single then variableStatement self .letKeyword
      else expressionStatement self
    | "import" =>
      if ← lookahead (do advance; isAnyMark ["(", "."]) then expressionStatement self
      else importDeclaration
    | "async" =>
      if ← lookahead (do advance; return !(← afterLineEnd) && (← isWord "function")) then
        advance
        functionDeclaration self true false
      else expressionStatement self
    | "using" =>
      if ← isUsingDeclaration then variableStatement self .using else expressionStatement self
    | "await" =>
      if ← lookahead (do advance; isUsingDeclaration) then
        advance
        variableStatement self .using
      else expressionStatement self
    | _ =>
      if ← inTypes <&&> beginsTypedDeclaration then modifiedDeclaration self []
      else expressionStatement self
  | _ => expressionStatement self

/-! ## The grammar -/

/-- The reading of a construct, given the readings of the constructs inside it. -/
def production : Goal → Reading Tree
  | .statement single => statement self single
  | .expression => expressions self
  | .assignment resultType => assignment self resultType
  | .unary => unaryExpression self
  | .operand => operand self true
  | .callee => operand self false
  | .pattern => bindingPattern self
  | .type => anyType self
  | .typeOperand => typeOperand self
  | .jsxElement inner => jsxElement self inner
  | .namespaceTail => namespaceTail self

/-- The reading of all constructs that are nested at most `depth` deep. -/
def grammar : Nat → Grammar
  | 0, _ => failure
  | depth + 1, goal => production (grammar depth) goal

/-- All statements of a script. A character that begins no token ends the script where a
statement could begin; it has been noted as a fault. -/
def wholeScript (self : Grammar) : Reading (List Tree) :=
  itemsUntil (do return (← token) == .endOfText || (← token) == .invalid) (self (.statement false))

end Reading

/-- A script that was read: its tree, and whether it has faults that reading went past. -/
structure Parsed where
  program : Tree
  faulty : Bool

/-- Reads a script; nothing if it has to be given up. Every construct nested in another begins
after at least one more token or is one of few steps between the constructs at the same token, so
the nesting is bounded by a multiple of the length. -/
def parse (dialect : Dialect) (text : String) : Option Parsed :=
  let chars := dropInterpreter text.toList
  let limit := 8 * chars.length + 64
  let surroundings : Surroundings :=
    { dialect := dialect, limit := limit, noIn := false, inGenerator := false,
      inAsync := dialect.isModule, inFunction := false, ambient := dialect.ambient,
      inDecorator := false, noConditional := false }
  let first := Lexeme.next chars
  let start : Cursor := ⟨first, first.faulty, 0⟩
  match Reading.wholeScript (Reading.grammar limit) surroundings start with
  | none => none
  | some (statements, last) =>
    let repeats := !dialect.types && Tree.exportTwice statements
    some ⟨.node .program statements, last.faulty || last.defaults != 0 || repeats⟩

end CodeAtlas.Script
