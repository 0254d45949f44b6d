import CodeAtlas.Script.Grammar.Expressions

/-!
# Statements

Statements and declarations. Which declaration begins at a word such as `type` or `namespace` is
told by the words after it, since none of them is reserved.
-/

namespace CodeAtlas.Script.Reading

variable (self : Grammar)

/-! ## Variables -/

/-- A declarator. Unless it stands in the head of a loop or is ambient, a constant and a pattern
need an initial value; leaving it out is a fault. -/
def declarator (keyword : VariableKeyword) (inLoop : Bool) : Reading Tree := do
  let target ← self .pattern
  if ← inTypes then
    if !(← afterLineEnd) then
      let _ ← eatMark "!"
  let types ← typeAfterColon self
  let value ← if ← eatMark "=" then (do return [← self (.assignment true)]) else pure []
  if value.isEmpty && !inLoop && !(← read).ambient then
    match keyword, target.kind with
    | .const, _ | _, .objectPattern | _, .arrayPattern => fault
    | _, _ => pure ()
  return .node .declarator (target :: types ++ value)

def declarators (keyword : VariableKeyword) (inLoop : Bool) : Reading Tree := do
  return .node (.declarators keyword) (← separatedBy "," (declarator self keyword inLoop))

/-- A variable declaration as a statement, at its keyword. -/
def variableStatement (keyword : VariableKeyword) : Reading Tree := do
  advance
  let tree ← declarators self keyword false
  endStatement
  return tree

def beginsPattern : Reading Bool := do
  if ← isIdentifier then return true
  isAnyMark ["[", "\x7b"]

/-- Whether the word `let` at the current token declares variables. -/
def isLetDeclaration (single : Bool) : Reading Bool := lookahead do
  advance
  if single && !(← isMark "[") then return false
  if ← isAnyWord ["instanceof", "in"] then return false
  match ← token with
  | .endOfText | .word .. | .mark "[" | .mark "\x7b" => return true
  | _ => return false

/-- Whether the word `using` at the current token declares a resource. -/
def isUsingDeclaration : Reading Bool := lookahead do
  expectWord "using"
  if ← afterLineEnd then return false
  return (← isIdentifier) && !(← isWord "of")

/-! ## Enumerations, aliases, interfaces and namespaces -/

def enumMember : Reading Tree := do
  let name ← match ← propertyName self with
    | .plain name => pure name
    | .computed (.node (.stringLiteral value) _) => pure (some value)
    | .computed _ => pure none
  let value ← if ← eatMark "=" then (do return [← self (.assignment true)]) else pure []
  return .node (.enumMember name) value

def enumDeclaration : Reading Tree := do
  expectWord "enum"
  let name ← identifier
  expectMark "\x7b"
  let members ← listUntil (isMark "\x7d") (enumMember self)
  expectMark "\x7d"
  return .node (.enumDeclaration name) [.plain .enumBody members]

def typeAlias : Reading Tree := do
  expectWord "type"
  let name ← identifier
  let generics ← typeParameters self
  expectMark "="
  let type ← self .type
  endStatement
  return .node (.typeAlias name) (generics ++ [type])

def interfaceDeclaration : Reading Tree := do
  expectWord "interface"
  let name ← identifier
  let generics ← typeParameters self
  let bases ← repeatFrom [] fun items => do
    if ← eatWord "extends" <||> eatWord "implements" then
      return .inl (items ++ (← separatedBy "," (typeReference self)))
    return .inr items
  let members ← typeMembers self
  return .node (.interfaceDeclaration name) (generics ++ [.plain .heritage bases, members])

def namespaceBody : Reading (List Tree) := do
  expectMark "\x7b"
  let statements ← itemsUntil (isMark "\x7d") (self (.statement false))
  expectMark "\x7d"
  return statements

/-- A namespace from its name on; a dotted name nests namespaces. -/
def namespaceTail : Reading Tree := do
  let name ← identifier
  if ← eatMark "." then
    return .node (.namespaceDeclaration (some name)) [← self .namespaceTail]
  return .node (.namespaceDeclaration (some name)) (← namespaceBody self)

/-- An ambient module whose name is a string, or `global`. -/
def ambientModule : Reading Tree := do
  if ← isMark "\x7b" then
    return .node (.namespaceDeclaration none) (← asAmbient true (namespaceBody self))
  endStatement
  return .node (.namespaceDeclaration none) []

/-! ## Declarations of a script with types -/

/-- Whether one of the declarations that only a script with types has begins at the current
word, which is not reserved. -/
def beginsTypedDeclaration : Reading Bool := lookahead do
  repeatFrom () fun _ => do
    match ← token with
    | .word "interface" false | .word "type" false =>
      advance
      return .inr (!(← afterLineEnd) && (← isIdentifier))
    | .word "module" false | .word "namespace" false =>
      advance
      return .inr (!(← afterLineEnd) && ((← isIdentifier) || (← isString)))
    | .word "global" false =>
      advance
      return .inr ((← isMark "\x7b") || (← isIdentifier) || (← isWord "export"))
    | .word "abstract" false | .word "accessor" false | .word "async" false
    | .word "declare" false | .word "private" false | .word "protected" false
    | .word "public" false | .word "readonly" false =>
      advance
      if ← afterLineEnd then return .inr false
      if (← isWord "type") || (← isAnyName) then return .inl ()
      return .inr false
    | .word "static" false => advance; return .inl ()
    | .word "var" false | .word "let" false | .word "const" false | .word "function" false
    | .word "class" false | .word "enum" false => return .inr true
    | .word "import" false =>
      advance
      return .inr ((← isString) || (← isAnyMark ["*", "\x7b"]) || (← isAnyName))
    | .word "using" false => return .inr (← isUsingDeclaration)
    | _ => return .inr false

/-- A declaration after `export` or after modifiers. -/
def declaration (marks : List Tree) : Reading Tree := do
  match ← token with
  | .word "var" false => variableStatement self .var
  | .word "let" false => variableStatement self .letKeyword
  | .word "const" false =>
    if ← inTypes <&&> lookahead (do advance; isWord "enum") then
      advance
      return ← enumDeclaration self
    variableStatement self .const
  | .word "function" false => functionDeclaration self false false
  | .word "async" false =>
    advance
    if ← afterLineEnd then failure
    functionDeclaration self true false
  | .word "class" false => classDeclaration self marks
  | .word "using" false => variableStatement self .using
  | .mark "@" =>
    let marks ← decorators self
    let _ ← eatWord "abstract"
    classDeclaration self marks
  | .word name false =>
    unless ← inTypes do failure
    match name with
    | "enum" => enumDeclaration self
    | "type" => typeAlias self
    | "interface" => interfaceDeclaration self
    | "module" | "namespace" =>
      advance
      if ← isString then
        advance
        return ← ambientModule self
      namespaceTail self
    | "global" => advance; ambientModule self
    | _ => failure
  | _ => failure

/-- Drops the modifiers before a declaration; the result tells whether it is ambient. -/
def declarationModifiers : Reading Bool :=
  repeatFrom false fun ambient => do
    if (← inTypes) && (← isAnyWord ["declare", "abstract", "private", "protected", "public",
        "readonly", "static", "accessor"]) then
      if ← lookahead (do advance; return !(← afterLineEnd) && (← isAnyName)) then
        let declares ← isWord "declare"
        advance
        return .inl (ambient || declares)
    return .inr ambient

def modifiedDeclaration (marks : List Tree) : Reading Tree := do
  let ambient ← declarationModifiers
  asAmbient ambient (declaration self marks)

/-! ## Control flow -/

def condition : Reading Tree := do
  expectMark "("
  let test ← withIn (self .expression)
  expectMark ")"
  return test

def block : Reading Tree := do
  expectMark "\x7b"
  let statements ← itemsUntil (isMark "\x7d") (self (.statement false))
  expectMark "\x7d"
  return .node (.scope .block) statements

/-- The expression of a loop's head up to `closing`, if there is one. -/
def loopPart (closing : String) : Reading (List Tree) := do
  let part ← if ← isMark closing then pure [] else (do return [← withIn (self .expression)])
  expectMark closing
  return part

/-- The rest of a loop after the first part of its head. -/
def loopRest (first : List Tree) (isDeclared : Bool) (defaults : Nat) : Reading Tree := do
  let ofLoop ← isWord "of"
  if ofLoop || (← isWord "in") then
    unless isDeclared || first.all (isTarget true) do failure
    modify fun c => { c with defaults := defaults }
    advance
    let iterated ← withIn (if ofLoop then self (.assignment true) else self .expression)
    expectMark ")"
    return .node (.scope .block) (first ++ [iterated, ← self (.statement true)])
  expectMark ";"
  let test ← loopPart self ";"
  let step ← loopPart self ")"
  return .node (.scope .block) (first ++ test ++ step ++ [← self (.statement true)])

def forLoop : Reading Tree := do
  expectWord "for"
  let _ ← eatWord "await"
  expectMark "("
  let defaults := (← get).defaults
  let declared (keyword : VariableKeyword) : Reading Tree := do
    advance
    let first ← withoutIn (declarators self keyword true)
    loopRest self [first] true defaults
  match ← token with
  | .mark ";" => loopRest self [] true defaults
  | .word "var" false => declared .var
  | .word "const" false => declared .const
  | _ =>
    if ← isWord "let" <&&> lookahead (do advance; return (← beginsPattern) &&
        !(← isWord "in")) then
      return ← declared .letKeyword
    if ← isWord "using" <&&> isUsingDeclaration then return ← declared .using
    if ← isWord "await" <&&> lookahead (do advance; isUsingDeclaration) then
      advance
      return ← declared .using
    let first ← withoutIn (self .expression)
    loopRest self [first] false defaults

def switchCase : Reading Tree := do
  let test ← if ← eatWord "case" then (do return [← withIn (self .expression)])
    else (do expectWord "default"; return [])
  expectMark ":"
  let statements ← itemsUntil
    (do return (← isMark "\x7d") || (← isAnyWord ["case", "default"])) (self (.statement false))
  return .plain .switchCase (test ++ statements)

def catchClause : Reading (List Tree) := do
  if ← eatWord "catch" then
    let caught ← if ← eatMark "(" then (do
        let target ← self .pattern
        let types ← typeAfterColon self
        expectMark ")"
        return target :: types)
      else pure []
    return [.node (.scope .block) (caught ++ [← block self])]
  return []

def tryStatement : Reading Tree := do
  expectWord "try"
  let body ← block self
  let handler ← catchClause self
  let final ← if ← eatWord "finally" then (do return [← block self]) else pure []
  if handler.isEmpty && final.isEmpty then fault
  return .plain .tryStatement (body :: handler ++ final)

/-- An expression as a statement, or a statement with a label. -/
def expressionStatement : Reading Tree := do
  if ← isIdentifier then
    if ← lookahead (do advance; isMark ":") then
      advance
      advance
      return .plain .labelled [← self (.statement true)]
  let tree ← withIn (self .expression)
  endStatement
  return .plain .expressionStatement [tree]

/-- A statement that begins with a reserved word, other than a declaration. -/
def keywordStatement? (name : String) : Reading (Option Tree) := do
  match name with
  | "if" =>
    advance
    let test ← condition self
    let yes ← self (.statement true)
    let no ← if ← eatWord "else" then (do return [← self (.statement true)]) else pure []
    return some (.plain .ifStatement (test :: yes :: no))
  | "while" =>
    advance
    let test ← condition self
    return some (.plain .whileStatement [test, ← self (.statement true)])
  | "do" =>
    advance
    let body ← self (.statement true)
    expectWord "while"
    let test ← condition self
    let _ ← eatMark ";"
    return some (.plain .doStatement [body, test])
  | "for" => return some (← forLoop self)
  | "switch" =>
    advance
    let subject ← condition self
    expectMark "\x7b"
    let cases ← itemsUntil (isMark "\x7d") (switchCase self)
    expectMark "\x7d"
    return some (.plain .switchStatement [subject, .node (.scope .block) cases])
  | "try" => return some (← tryStatement self)
  | "with" =>
    advance
    let subject ← condition self
    return some (.plain .withStatement [subject, ← self (.statement true)])
  | "return" =>
    unless (← read).inFunction do fault
    advance
    if ← canEnd then
      endStatement
      return some (.leaf .returnStatement)
    let value ← withIn (self .expression)
    endStatement
    return some (.plain .returnStatement [value])
  | "throw" =>
    advance
    if ← afterLineEnd then fault
    let value ← withIn (self .expression)
    endStatement
    return some (.plain .throwStatement [value])
  | "break" | "continue" =>
    advance
    if !(← canEnd) then
      let _ ← identifier
    endStatement
    return some (.leaf .jump)
  | "debugger" =>
    advance
    endStatement
    return some (.leaf .debugger)
  | _ => return none

end CodeAtlas.Script.Reading
