import CodeAtlas.Script.Grammar.Elements

/-!
# Expressions

Operands, operators, assignments and arrow functions. The operators of a chain are read without
regard to their precedence: which of them binds tighter changes neither the names that an
expression mentions nor their order.
-/

namespace CodeAtlas.Script.Reading

variable (self : Grammar)

/-! ## Targets of assignments -/

mutual

/-- Whether an expression can be assigned to, or destructured if `patterns` holds. -/
def isTarget (patterns : Bool) : Tree → Bool
  | .node (.reference _ _) _ => true
  | .node (.form f) parts =>
    match f with
    | .member | .computedMember => true
    | .parenthesized | .nonNull | .cast => isFirstTarget false parts
    | .array | .object => patterns && areTargets parts
    | .spread => patterns && areTargets parts
    | .assignment => patterns && isFirstTarget true parts
    | .property => patterns && isLastTarget patterns parts
    | .shorthandDefault => patterns
    | .elision => patterns
    | _ => false
  | _ => false

def isFirstTarget (patterns : Bool) : List Tree → Bool
  | [] => false
  | t :: _ => isTarget patterns t

def isLastTarget (patterns : Bool) : List Tree → Bool
  | [] => false
  | [t] => isTarget patterns t
  | _ :: ts => isLastTarget patterns ts

def areTargets : List Tree → Bool
  | [] => true
  | t :: ts => isTarget true t && areTargets ts

end

/-! ## Literals -/

def objectProperty : Reading Tree := do
  if ← eatMark "..." then return .plain .spread [← self (.assignment true)]
  let isAsync ← if ← isWord "async" then
      lookahead do
        advance
        return !(← afterLineEnd) && ((← beginsPropertyName) || (← isMark "*"))
    else pure false
  if isAsync then advance
  let isGenerator ← eatMark "*"
  if !isAsync && !isGenerator && (← isAnyWord ["get", "set"]) then
    if ← lookahead (do advance; beginsPropertyName) then
      advance
      let key := (← propertyName self).parts
      return .plain .property (key ++ [← methodFunction self false false])
  let shorthand ← isIdentifier
  let key ← propertyName self
  if isAsync || isGenerator || (← isAnyMark ["(", "<"]) then
    return .plain .property (key.parts ++ [← methodFunction self isAsync isGenerator])
  if ← eatMark ":" then
    return .plain .property (key.parts ++ [← self (.assignment true)])
  match shorthand, key with
  | true, .plain (some name) =>
    let mention := Tree.node (.reference name .value) []
    if ← eatMark "=" then
      let value ← self (.assignment true)
      modify fun c => { c with defaults := c.defaults + 1 }
      return .plain .property [.plain .shorthandDefault [mention, value]]
    return .plain .property [mention]
  | _, _ => failure

def objectLiteral : Reading Tree := withIn do
  expectMark "\x7b"
  let properties ← listUntil (isMark "\x7d") (objectProperty self)
  expectMark "\x7d"
  return .plain .object properties

def arrayLiteral : Reading Tree := withIn do
  expectMark "["
  let elements ← listUntil (isMark "]") do
    if ← isMark "," then return .leaf .elision
    if ← eatMark "..." then return .plain .spread [← self (.assignment true)]
    self (.assignment true)
  expectMark "]"
  return .plain .array elements

/-- A regular expression, read anew from its slash. -/
def regularExpression : Reading Tree := do
  let l := (← get).lexeme
  match scanRegularExpression false false l.start.tail with
  | none => failure
  | some rest =>
    setLexeme { l with token := .regularExpression, rest := rest }
    advance
    return .leaf .literal

def callArguments : Reading Tree := withIn do
  expectMark "("
  let items ← listUntil (isMark ")") do
    if ← eatMark "..." then return .plain .spread [← self (.assignment true)]
    self (.assignment true)
  expectMark ")"
  return .node .arguments items

/-- An expression that begins with `import`. -/
def importExpression : Reading Tree := do
  expectWord "import"
  if ← eatMark "." then
    let word ← anyWord
    if word == "meta" then return .leaf .metaProperty
    unless word == "defer" || word == "source" do failure
  expectMark "("
  let items ← withIn (listUntil (isMark ")") (self (.assignment true)))
  expectMark ")"
  if items.isEmpty || items.length > 2 then failure
  return .node .importCall items

/-- An operand that no other operand is a part of. -/
def primary : Reading Tree := do
  match ← token with
  | .word name escaped =>
    if escaped then return .node (.reference (← identifier) .value) []
    match name with
    | "this" => advance; return .leaf .this
    | "null" | "true" | "false" => advance; return .leaf .literal
    | "function" => functionExpression self false
    | "class" => classExpression self []
    | "import" => importExpression self
    | "super" =>
      advance
      if ← isAnyMark ["(", ".", "["] then return .leaf .super else failure
    | "async" =>
      if ← lookahead (do advance; return !(← afterLineEnd) && (← isWord "function")) then
        advance
        return ← functionExpression self true
      return .node (.reference (← identifier) .value) []
    | _ => return .node (.reference (← identifier) .value) []
  | .number => advance; return .leaf .literal
  | .string value => advance; return .node (.stringLiteral value) []
  | .template _ => templateOf (withIn (self .expression))
  | .privateName _ =>
    advance
    if ← isWord "in" then return .leaf .privateName else failure
  | .mark "(" =>
    advance
    let inner ← withReader (fun s => { s with noIn := false, inDecorator := false })
      (self .expression)
    expectMark ")"
    return .plain .parenthesized [inner]
  | .mark "[" => arrayLiteral self
  | .mark "\x7b" => objectLiteral self
  | .mark "/" | .mark "/=" => regularExpression
  | .mark "@" =>
    let marks ← decorators self
    classExpression self marks
  | .mark "<" => if ← inJsx then self (.jsxElement false) else failure
  | _ => failure

/-! ## Operands -/

/-- The reserved words that begin an expression. -/
def expressionWords : List String :=
  ["this", "super", "null", "true", "false", "function", "class", "new", "typeof", "void",
   "delete", "import"]

/-- Whether the token after type arguments tells that they were none, but comparisons. -/
def mayFollowTypeArguments : Reading Bool := do
  match ← token with
  | .mark "(" | .template _ => return true
  | .mark "<" | .mark ">" | .mark "+" | .mark "-" => return false
  | _ =>
    if ← afterLineEnd then return true
    match ← token with
    | .endOfText | .invalid => return true
    | .mark text => return !(["[", "\x7b", "!", "~", "++", "--", "@", "/="].contains text)
    | .word name false =>
      return ["as", "satisfies"].contains name ||
        (reservedWords.contains name && !expressionWords.contains name)
    | _ => return false

def expressionTypeArguments : Reading (Option Tree) := do
  if (← inTypes) && (← isLeftAngle) then
    attempt do
      let generics ← typeArguments self
      if ← mayFollowTypeArguments then return generics else failure
  else return none

def memberName : Reading Unit := do
  match ← token with
  | .word .. | .privateName _ => advance
  | _ => failure

/-- What is read of an operand so far. -/
structure Operand where
  tree : Tree
  /-- A `?.` occurs in it, so that it can not be assigned to. -/
  optional : Bool

def Operand.close (o : Operand) : Tree :=
  if o.optional then .plain .optionalChain [o.tree] else o.tree

/-- One step of an operand after its `?.`. -/
def optionalStep (base : Tree) : Reading Tree := do
  match ← token with
  | .mark "(" => return .node .call [base, ← callArguments self]
  | .mark "[" =>
    advance
    let key ← withIn (self .expression)
    expectMark "]"
    return .plain .computedMember [base, key]
  | .mark "<" | .mark "<<" =>
    unless ← inTypes do failure
    let generics ← typeArguments self
    return .node .call [base, generics, ← callArguments self]
  | .template _ => failure
  | _ =>
    memberName
    return .plain .member [base]

/-- One step of an operand: a member, a call, a template or type arguments. -/
def operandStep (calls : Bool) (o : Operand) : Reading (Operand ⊕ Tree) := do
  let stop : Reading (Operand ⊕ Tree) := return .inr o.close
  let go (tree : Tree) : Reading (Operand ⊕ Tree) := return .inl ⟨tree, o.optional⟩
  match ← token with
  | .mark "." =>
    advance
    memberName
    go (.plain .member [o.tree])
  | .mark "?." =>
    if !calls then failure
    advance
    return .inl ⟨← optionalStep self o.tree, true⟩
  | .mark "[" =>
    if (← read).inDecorator then stop
    else
      advance
      let key ← withIn (self .expression)
      expectMark "]"
      go (.plain .computedMember [o.tree, key])
  | .mark "(" =>
    if calls then go (.node .call [o.tree, ← callArguments self]) else stop
  | .template _ =>
    if o.optional then failure
    let template ← templateOf (withIn (self .expression))
    go (.plain .taggedTemplate [o.tree, template])
  | .mark "!" =>
    if (← inTypes) && !(← afterLineEnd) then
      advance
      go (.plain .nonNull [o.tree])
    else stop
  | .mark "<" | .mark "<<" =>
    match ← expressionTypeArguments self with
    | none => stop
    | some generics =>
      match ← token with
      | .mark "(" =>
        if calls then go (.node .call [o.tree, generics, ← callArguments self])
        else return .inr (.plain .instantiation [o.close, generics])
      | _ => go (.plain .instantiation [o.tree, generics])
  | _ => stop

def operandRest (calls : Bool) (base : Tree) : Reading Tree :=
  repeatFrom (Operand.mk base false) (operandStep self calls)

def newExpression : Reading Tree := do
  expectWord "new"
  if ← eatMark "." then
    expectWord "target"
    return .leaf .metaProperty
  if ← isWord "import" then
    unless ← lookahead (do advance; isMark ".") do failure
  let callee ← self .callee
  if ← isMark "(" then
    return .plain .construct [callee, ← callArguments self]
  return .plain .construct [callee]

def operandBase : Reading Tree := do
  if ← isWord "new" then newExpression self else primary self

/-- An operand without operators. -/
def operand (calls : Bool) : Reading Tree := do
  operandRest self calls (← operandBase self)

/-- An operand with `++` or `--` before or after it. -/
def updateExpression : Reading Tree := do
  if ← isAnyMark ["++", "--"] then
    advance
    let target ← self .unary
    unless isTarget false target do failure
    return .plain .update [target]
  let target ← self .operand
  if (← isAnyMark ["++", "--"]) && !(← afterLineEnd) then
    unless isTarget false target do failure
    advance
    return .plain .update [target]
  return target

/-! ## Operators -/

def operandFollows : Reading Bool := do
  if ← afterLineEnd then return false
  match ← token with
  | .word name _ => return !(["in", "instanceof", "of", "as", "satisfies"].contains name)
  | .string _ | .number | .privateName _ | .template _ => return true
  | _ => return false

/-- Whether `await` is an operator here. -/
def isAwait : Reading Bool := do
  if !(← isWord "await") then return false
  if (← read).inAsync then return true
  lookahead (do advance; operandFollows)

def isYield : Reading Bool := do
  if !(← isWord "yield") then return false
  if (← read).inGenerator then return true
  lookahead (do advance; operandFollows)

/-- The type of a cast: a type, or the word that makes a value constant. -/
def castType : Reading Tree := do
  if ← eatWord "const" then return .leaf .literal
  withConditional true (self .type)

/-- An operand with the operators before it. -/
def unaryExpression : Reading Tree := do
  match ← token with
  | .mark "+" | .mark "-" | .mark "!" | .mark "~"
  | .word "typeof" false | .word "void" false | .word "delete" false =>
    advance
    return .plain .unary [← self .unary]
  | .mark "<" =>
    if (← inTypes) && !(← inJsx) then
      advance
      let type ← castType self
      expectMark ">"
      return .plain .cast [← self .unary, type]
    updateExpression self
  | _ =>
    if ← isAwait then
      unless (← read).inAsync do fault
      advance
      return .plain .unary [← self .unary]
    updateExpression self

/-- The operators between two operands that are marks. -/
def binaryMarks : List String :=
  ["||", "&&", "??", "|", "^", "&", "==", "!=", "===", "!==", "<", ">", "<=", ">=", "<<", ">>",
   ">>>", "+", "-", "*", "/", "%", "**"]

/-- Operands with the operators between them. -/
def binaryExpression : Reading Tree := do
  let first ← self .unary
  let operands ← repeatFrom [first] fun operands => do
    joinRightAngle
    if ← isAnyMark binaryMarks then
      advance
      return .inl ((← self .unary) :: operands)
    if ← isWord "instanceof" then
      advance
      return .inl ((← self .unary) :: operands)
    if (← isWord "in") && !(← read).noIn then
      advance
      return .inl ((← self .unary) :: operands)
    if (← inTypes) && !(← afterLineEnd) && (← isAnyWord ["as", "satisfies"]) then
      advance
      let type ← castType self
      match operands with
      | last :: before => return .inl (.plain .cast [last, type] :: before)
      | [] => failure
    return .inr operands
  match operands.reverse with
  | [single] => return single
  | operands => return .plain .binary operands

def assignmentMarks : List String :=
  ["=", "+=", "-=", "*=", "/=", "%=", "**=", "<<=", ">>=", ">>>=", "&=", "|=", "^=", "&&=", "||=",
   "??="]

/-! ## Arrow functions -/

def arrowBody (isAsync resultType : Bool) : Reading Tree := do
  if ← isMark "\x7b" then return ← functionBody self isAsync false
  let value ← withReader
    (fun s => { s with inAsync := isAsync, inGenerator := false, inFunction := true })
    (self (.assignment resultType))
  return .node .functionBody [.plain .returnStatement [value]]

/-- An arrow function with a single parameter without brackets. -/
def simpleArrow (isAsync resultType : Bool) : Reading Tree := do
  let name ← identifier
  if ← afterLineEnd then failure
  expectMark "=>"
  let parameters := Tree.node .parameters [.plain .parameter [.node (.binding name) []]]
  return .node .arrow [parameters, ← arrowBody self isAsync resultType]

/-- What a look at the first tokens tells about an arrow function. -/
inductive ArrowGuess where
  | no | perhaps | certainly

/-- Whether an arrow function with brackets begins here, as far as its first tokens tell. -/
def guessArrow : Reading ArrowGuess := do
  let guess : Reading ArrowGuess := do
    if ← isWord "async" then
      advance
      if ← afterLineEnd then return .no
    if ← eatMark "(" then
      if ← eatMark ")" then
        if ← isAnyMark ["=>", ":", "\x7b"] then return .certainly else return .no
      if ← isAnyMark ["[", "\x7b", "...", "@"] then return .perhaps
      if ← isWord "this" then return .perhaps
      unless ← isIdentifier do return .no
      if (← inTypes) &&
          (← isAnyWord ["public", "private", "protected", "readonly", "override"]) then
        return .perhaps
      advance
      match ← token with
      | .mark ":" => return .certainly
      | .mark "," | .mark "=" | .mark ")" | .mark "?" => return .perhaps
      | _ => return .no
    if ← inTypes <&&> eatMark "<" then
      unless (← isIdentifier) || (← isWord "const") do return .no
      if ← inJsx then
        if ← isWord "const" then return .perhaps
        advance
        match ← token with
        | .mark "," | .mark "=" => return .certainly
        | .word "extends" false =>
          advance
          if ← isAnyMark ["=", ">", "/"] then return .no else return .certainly
        | _ => return .no
      return .perhaps
    return .no
  fun s c => some ((((guess s c).map (·.1)).getD .no), c)

/-- An arrow function with its parameters in brackets. -/
def bracketedArrow (resultType : Bool) : Reading Tree := do
  let isAsync ← eatWord "async"
  let generics ← typeParameters self
  let items ← withReader (fun s => { s with inAsync := isAsync || s.inAsync, noIn := false })
    (parameters self)
  let result ← withConditional true (resultAfterColon self)
  if ← afterLineEnd then failure
  expectMark "=>"
  let body ← arrowBody self isAsync resultType
  if !resultType && !result.isEmpty && !(← isMark ":") then failure
  return .node .arrow (generics ++ items :: result ++ [body])

/-- An arrow function, if one begins here. -/
def arrowFunction? (resultType : Bool) : Reading (Option Tree) := do
  match ← guessArrow with
  | .certainly =>
    if resultType then some <$> bracketedArrow self resultType
    else attempt (bracketedArrow self resultType)
  | .perhaps => attempt (bracketedArrow self resultType)
  | .no =>
    if ← isIdentifier then
      if ← lookahead (do advance; return !(← afterLineEnd) && (← isMark "=>")) then
        return ← some <$> simpleArrow self false resultType
    if ← isWord "async" then
      let simple ← lookahead do
        advance
        if ← afterLineEnd then return false
        let _ ← identifier
        isMark "=>"
      if simple then
        advance
        return ← some <$> simpleArrow self true resultType
    return none

/-! ## Assignments -/

def yieldExpression : Reading Tree := do
  unless (← read).inGenerator do fault
  expectWord "yield"
  if ← afterLineEnd then return .leaf .unary
  if ← eatMark "*" then return .plain .unary [← self (.assignment true)]
  match ← token with
  | .endOfText | .mark ")" | .mark "]" | .mark "\x7d" | .mark "," | .mark ";" | .mark ":"
  | .word "in" false | .word "of" false => return .leaf .unary
  | _ => return .plain .unary [← self (.assignment true)]

/-- An expression without a comma. -/
def assignment (resultType : Bool) : Reading Tree := do
  if ← isYield then return ← yieldExpression self
  if let some arrow ← arrowFunction? self resultType then return arrow
  let defaults := (← get).defaults
  let left ← binaryExpression self
  if ← isAnyMark assignmentMarks then
    unless isTarget (← isMark "=") left do failure
    modify fun c => { c with defaults := defaults }
    advance
    return .plain .assignment [left, ← self (.assignment resultType)]
  if ← eatMark "?" then
    let yes ← withIn (self (.assignment false))
    expectMark ":"
    return .plain .conditional [left, yes, ← self (.assignment resultType)]
  return left

/-- Expressions with commas between them. -/
def expressions : Reading Tree := do
  match ← separatedBy "," (self (.assignment true)) with
  | [single] => return single
  | items => return .plain .sequence items

end CodeAtlas.Script.Reading
