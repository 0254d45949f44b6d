import CodeAtlas.Script.Grammar.Types

/-!
# Functions and classes

Functions with their bodies, the members of classes and object literals, and classes. A method is
a function expression without a name, so that a declared function is always one that stands as a
statement.
-/

namespace CodeAtlas.Script.Reading

variable (self : Grammar)

def functionBody (isAsync isGenerator : Bool) : Reading Tree := do
  expectMark "\x7b"
  let statements ← asBody isAsync isGenerator
    (itemsUntil (isMark "\x7d") (self (.statement false)))
  expectMark "\x7d"
  return .node .functionBody statements

/-- All of a function from its type parameters on. Without a body it is the head of an overload
or of an ambient function, and ends like a statement. -/
def functionParts (isAsync isGenerator : Bool) : Reading (List Tree) := do
  let generics ← typeParameters self
  let items ← withReader
    (fun s => { s with inAsync := isAsync, inGenerator := isGenerator, noIn := false })
    (parameters self)
  let result ← resultAfterColon self
  if ← isMark "\x7b" then
    let body ← functionBody self isAsync isGenerator
    return generics ++ items :: result ++ [body]
  unless ← inTypes do failure
  endStatement
  return generics ++ items :: result

/-- A function declaration from its keyword on. Only a default export may go without a name. -/
def functionDeclaration (isAsync nameless : Bool) : Reading Tree := do
  expectWord "function"
  let isGenerator ← eatMark "*"
  let name ← optionalWhen isIdentifier identifier
  if name.isNone && !nameless then
    if ← isMark "(" then fault else failure
  return .node (.functionDeclaration name) (← functionParts self isAsync isGenerator)

/-- A function expression from its keyword on. -/
def functionExpression (isAsync : Bool) : Reading Tree := do
  expectWord "function"
  let isGenerator ← eatMark "*"
  let name ← optionalWhen isIdentifier identifier
  return .node (.functionExpression name) (← functionParts self isAsync isGenerator)

def methodFunction (isAsync isGenerator : Bool) : Reading Tree := do
  return .node (.functionExpression none) (← functionParts self isAsync isGenerator)

/-! ## Members of classes -/

/-- The modifiers that only a script with types has. -/
def typeModifiers : List String :=
  ["public", "private", "protected", "abstract", "override", "readonly", "declare"]

/-- Drops the modifiers before a member of a class, `async` apart. -/
def memberModifiers : Reading Unit :=
  repeatFrom () fun _ => do
    let static ← isWord "static"
    let other ← isAnyWord ("accessor" :: if ← inTypes then typeModifiers else [])
    if static || other then
      if ← lookahead (do advance; return (static || !(← afterLineEnd)) && (← mayFollowModifier))
      then
        advance
        return .inl ()
    return .inr ()

def propertyValue : Reading (List Tree) := do
  if ← eatMark "=" then return [← asBody false false (self (.assignment true))]
  return []

def memberBody (marks : List Tree) : Reading Tree := do
  if ← inTypes <&&> isMark "[" <&&> beginsIndexSignature then
    let signature ← indexSignature self
    endMember
    return signature
  let isAsync ← if ← isWord "async" then
      lookahead do
        advance
        return !(← afterLineEnd) && ((← beginsPropertyName) || (← isMark "*"))
    else pure false
  if isAsync then advance
  let isGenerator ← eatMark "*"
  if !isAsync && !isGenerator && (← isAnyWord ["get", "set"]) then
    if ← lookahead (do advance; beginsPropertyName) then
      advance
      let key := (← propertyName self).parts
      return .plain .classMember (marks ++ key ++ [← methodFunction self false false])
  let key := (← propertyName self).parts
  let optional ← if ← inTypes then isAnyMark ["?", "!"] else pure false
  if optional then advance
  if isAsync || isGenerator || (← isAnyMark ["(", "<"]) then
    return .plain .classMember (marks ++ key ++ [← methodFunction self isAsync isGenerator])
  let types ← typeAfterColon self
  let value ← propertyValue self
  endStatement
  return .plain .classMember (marks ++ key ++ types ++ value)

def classMember : Reading Tree := do
  let marks ← decorators self
  if ← isWord "static" then
    if ← lookahead (do advance; isMark "\x7b") then
      advance
      advance
      let statements ← asBody false false (itemsUntil (isMark "\x7d") (self (.statement false)))
      expectMark "\x7d"
      return .plain .classMember [.node (.scope .staticBlock) statements]
  memberModifiers
  memberBody self marks

/-- The members of a class in their braces, between which semicolons may stand. -/
def classBody : Reading Tree := do
  expectMark "\x7b"
  let members ← itemsUntil (isMark "\x7d") do
    if ← eatMark ";" then return .leaf .emptyStatement
    withReader (fun s => { s with noIn := false, inDecorator := false, noConditional := false })
      (classMember self)
  expectMark "\x7d"
  return .plain .classBody members

/-! ## Classes -/

def classHeritage : Reading (List Tree) := do
  repeatFrom [] fun items => do
    if ← eatWord "extends" then
      let base ← self .operand
      let generics ← if ← inTypes then typeArgumentsHere self else pure []
      return .inl (items ++ [.plain .heritage (base :: generics)])
    if ← inTypes <&&> eatWord "implements" then
      return .inl (items ++ [.plain .heritage (← separatedBy "," (typeReference self))])
    return .inr items

/-- A class from its keyword on: its name, and its parts for a given name of its own. -/
def classTail : Reading (Option String × List Tree) := do
  expectWord "class"
  let named ← isIdentifier
  let implementing ← isWord "implements"
  let name ← if named && !implementing then some <$> identifier else pure none
  let generics ← typeParameters self
  let heritage ← classHeritage self
  let body ← classBody self
  return (name, generics ++ heritage ++ [body])

/-- A class declaration after its decorators. -/
def classDeclaration (marks : List Tree) : Reading Tree := do
  let (name, parts) ← classTail self
  return .node (.classDeclaration name) (marks ++ [.node (.classScope none) parts])

/-- A class expression after its decorators. -/
def classExpression (marks : List Tree) : Reading Tree := do
  let (name, parts) ← classTail self
  return .node (.classExpression name) (marks ++ [.node (.classScope name) parts])

end CodeAtlas.Script.Reading
