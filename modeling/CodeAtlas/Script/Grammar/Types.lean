import CodeAtlas.Script.Grammar.Bindings

/-!
# Types

The grammar of types. Of a type only the names matter later: the names it mentions, in the sense
of a type or, after `typeof`, of a value, and the names it declares, which are the parameters of
types of functions, the keys of mapped types and the inferred names of conditional types.
-/

namespace CodeAtlas.Script.Reading

variable (self : Grammar)

def typeKeywords : List String :=
  ["any", "unknown", "never", "object", "string", "number", "bigint", "boolean", "symbol",
   "undefined", "intrinsic"]

/-! ## Arguments and names of types -/

def typeArguments : Reading Tree := do
  eatLeftAngle
  let items ← listUntil (isMark ">") (withConditional true (self .type))
  if items.isEmpty then failure
  expectMark ">"
  return .plain .typeArguments items

/-- Type arguments, if they follow on the same line. -/
def typeArgumentsHere : Reading (List Tree) := do
  if !(← afterLineEnd) && (← isLeftAngle) then return [← typeArguments self]
  return []

/-- The part of a qualified name after its first name. -/
def qualifiers : Reading Unit :=
  repeatFrom () fun _ => do
    if ← eatMark "." then
      match ← token with
      | .word .. | .privateName _ => advance; return .inl ()
      | _ => failure
    return .inr ()

/-- A name of a type, perhaps qualified; its first name is what the script mentions. -/
def typeName (sense : Sense) : Reading Tree := do
  if ← eatWord "this" then
    qualifiers
    return .leaf .this
  let name ← identifier
  qualifiers
  return .node (.reference name sense) []

def typeReference : Reading Tree := do
  let name ← typeName .type
  return .plain .typeName (name :: (← typeArgumentsHere self))

/-- The attributes of an import, whose content does not matter. -/
def importAttributes : Reading Unit := do
  expectMark "\x7b"
  let _ ← listUntil (isMark "\x7d") do
    match ← token with
    | .word .. | .string _ => advance
    | _ => failure
    expectMark ":"
    let _ ← stringValue
  expectMark "\x7d"

/-- A type taken from another module, which the script does not import. -/
def importedType : Reading Tree := do
  expectWord "import"
  expectMark "("
  let source ← withConditional true (self .type)
  if ← eatMark "," then
    unless ← isMark ")" do
      expectMark "\x7b"
      unless ← eatWord "with" do expectWord "assert"
      expectMark ":"
      importAttributes
      let _ ← eatMark ","
      expectMark "\x7d"
      let _ ← eatMark ","
  expectMark ")"
  qualifiers
  return .plain .typeName (source :: (← typeArgumentsHere self))

/-- The type of a value: `typeof` and a name. -/
def valueType : Reading Tree := do
  expectWord "typeof"
  if ← isWord "import" then return ← importedType self
  let name ← typeName .typeOf
  return .plain .typeName (name :: (← typeArgumentsHere self))

/-! ## Types of functions -/

/-- The type of a result: a type, or what the function tells about a parameter. -/
def resultType : Reading Tree := do
  if ← isWord "asserts" then
    let begins ← lookahead do
      advance
      return !(← afterLineEnd) && ((← isIdentifier) || (← isWord "this"))
    if begins then
      let asserted ← attempt do
        advance
        advance
        if ← eatWord "is" then return [← self .type]
        -- a type whose name is `asserts` would go on differently
        return []
      match asserted with
      | some types => return .plain .typeName types
      | none => pure ()
  if (← isIdentifier) || (← isWord "this") then
    if ← lookahead (do advance; return !(← afterLineEnd) && (← isWord "is")) then
      advance
      advance
      return .plain .typeName [← self .type]
  self .type

def resultAfterColon : Reading (List Tree) := do
  if ← inTypes <&&> eatMark ":" then return [← resultType self]
  return []

def functionType : Reading Tree := do
  let generics ← typeParameters self
  let items ← parameters self
  expectMark "=>"
  return .node .signature (generics ++ [items, ← resultType self])

def constructorType : Reading Tree := do
  let _ ← eatWord "abstract"
  expectWord "new"
  functionType self

/-- Drops a pattern inside brackets, up to the closing one. -/
def skipPattern : Reading Bool := do
  match ← attempt (self .pattern) with
  | some _ => return true
  | none => return false

/-- Whether the bracket at the current token can only begin the parameters of a type of
functions. -/
def beginsFunctionType : Reading Bool := lookahead do
  if ← isMark "<" then return true
  unless ← eatMark "(" do return false
  if ← isAnyMark [")", "..."] then return true
  parameterModifiers
  let begins ← if (← isIdentifier) || (← isWord "this") then (do advance; return true)
    else if ← isAnyMark ["[", "\x7b"] then skipPattern self
    else pure false
  if !begins then return false
  if ← isAnyMark [":", ",", "?", "="] then return true
  if ← eatMark ")" then isMark "=>" else return false

def beginsConstructorType : Reading Bool := do
  if ← isWord "new" then return true
  if ← isWord "abstract" then lookahead (do advance; isWord "new") else return false

/-! ## Members of object types -/

def endMember : Reading Unit := do
  if ← eatMark "," then return
  endStatement

/-- The head of a method or of a call of an object type. -/
def memberSignature (key : List Tree) : Reading Tree := do
  let generics ← typeParameters self
  let items ← parameters self
  let result ← resultAfterColon self
  return .plain .typeMember (key ++ [.node .signature (generics ++ items :: result)])

def beginsIndexSignature : Reading Bool := lookahead do
  expectMark "["
  let _ ← anyWord
  isAnyMark [":", ","]

/-- An index signature, whose parameter names nothing. -/
def indexSignature : Reading Tree := do
  expectMark "["
  let _ ← anyWord
  let keys ← typeAfterColon self
  expectMark "]"
  return .plain .typeMember (keys ++ (← typeAfterColon self))

def typeMember : Reading Tree := do
  let body : Reading Tree := do
    if ← isAnyMark ["(", "<"] then return ← memberSignature self []
    if ← isWord "new" then
      if ← lookahead (do advance; isAnyMark ["(", "<"]) then
        advance
        return ← memberSignature self []
    repeatFrom () fun _ => do
      if ← isAnyWord ["readonly", "public", "private", "protected", "static", "declare"] then
        if ← lookahead (do advance; return !(← afterLineEnd) && (← beginsPropertyName)) then
          advance
          return .inl ()
      return .inr ()
    if ← isMark "[" then
      if ← beginsIndexSignature then return ← indexSignature self
    if ← isAnyWord ["get", "set"] then
      if ← lookahead (do advance; beginsPropertyName) then advance
    let key := (← propertyName self).parts
    let _ ← eatMark "?"
    if ← isAnyMark ["(", "<"] then return ← memberSignature self key
    return .plain .typeMember (key ++ (← typeAfterColon self))
  let member ← body
  endMember
  return member

def typeMembers : Reading Tree := do
  expectMark "\x7b"
  let members ← itemsUntil (isMark "\x7d") (withConditional true (typeMember self))
  expectMark "\x7d"
  return .plain .typeMembers members

/-! ## Mapped types -/

/-- Whether the brace at the current token begins a mapped type. -/
def beginsMappedType : Reading Bool := lookahead do
  expectMark "\x7b"
  if ← isAnyMark ["+", "-"] then
    advance
    return ← isWord "readonly"
  let _ ← eatWord "readonly"
  expectMark "["
  let _ ← identifier
  isWord "in"

/-- A mark of a mapped type, which has to follow a sign and may stand without one. -/
def eatSigned (eatMarked : Reading Bool) : Reading Unit := do
  let signed ← isAnyMark ["+", "-"]
  if signed then advance
  let marked ← eatMarked
  if signed && !marked then failure

def mappedType : Reading Tree := do
  expectMark "\x7b"
  eatSigned (eatWord "readonly")
  expectMark "["
  let key ← identifier
  expectWord "in"
  let keys ← withConditional true (self .type)
  let renamed ← if ← eatWord "as" then (do return [← withConditional true (self .type)])
    else pure []
  expectMark "]"
  eatSigned (eatMark "?")
  let values ← typeAfterColon self
  let _ ← if ← isMark "," then eatMark "," else eatMark ";"
  expectMark "\x7d"
  return .node (.scope .mapped) (.node (.typeParameter key) [keys] :: renamed ++ values)

/-! ## Tuples and templates -/

/-- An element of a tuple type, which may carry a name of its own. -/
def tupleElement : Reading Tree := do
  let _ ← eatMark "..."
  let named ← lookahead do
    let _ ← anyWord
    if ← isMark ":" then return true
    if ← eatMark "?" then isMark ":" else return false
  if named then
    advance
    let _ ← eatMark "?"
    expectMark ":"
  let item ← withConditional true (self .type)
  let _ ← eatMark "?"
  return item

/-- The rest of a template after its first piece: substitutions read by `item`. -/
def templateRest (item : Reading Tree) : Reading (List Tree) := do
  let items ← repeatFrom [] fun items => do
    let items := (← item) :: items
    unless ← isMark "\x7d" do failure
    let l := (← get).lexeme
    match scanTemplate l.rest with
    | none => failure
    | some (closed, rest) =>
      setLexeme { l with token := .template closed, rest := rest }
      advance
      if closed then return .inr items else return .inl items
  return items.reverse

/-- A template, as an expression or as a type. -/
def templateOf (item : Reading Tree) : Reading Tree := do
  match ← token with
  | .template true => advance; return .leaf .template
  | .template false => advance; return .plain .template (← templateRest item)
  | _ => failure

/-! ## Types without operators -/

/-- A type that needs no operator. -/
def simpleType : Reading Tree := do
  match ← token with
  | .mark "\x7b" => if ← beginsMappedType then mappedType self else typeMembers self
  | .mark "[" =>
    advance
    let items ← listUntil (isMark "]") (tupleElement self)
    expectMark "]"
    return .plain .typeOperator items
  | .mark "(" =>
    advance
    let inner ← withConditional true (self .type)
    expectMark ")"
    return inner
  | .mark "-" =>
    advance
    match ← token with
    | .number => advance; return .leaf .literal
    | _ => failure
  | .number => advance; return .leaf .literal
  | .string _ => advance; return .leaf .literal
  | .template _ => templateOf (withConditional true (self .type))
  | .word "this" false =>
    advance
    if ← onSameLine <&&> eatWord "is" then return .plain .typeName [← self .type]
    return .leaf .this
  | .word "typeof" false => valueType self
  | .word "import" false => importedType self
  | .word "true" false | .word "false" false | .word "null" false | .word "void" false =>
    advance
    return .leaf .literal
  | .word name false =>
    let qualified ← lookahead do advance; isMark "."
    if typeKeywords.contains name && !qualified then
      advance
      return .leaf .literal
    typeReference self
  | _ => typeReference self

/-- A type with the brackets of arrays and of indexed types after it. -/
def postfixType : Reading Tree := withConditional true do
  let base ← simpleType self
  repeatFrom base fun base => do
    if ← onSameLine <&&> eatMark "[" then
      if ← eatMark "]" then return .inl (.plain .typeOperator [base])
      let key ← self .type
      expectMark "]"
      return .inl (.plain .typeOperator [base, key])
    return .inr base

/-- An inferred name with its bound. A bound is not taken where the `extends` after the name
belongs to a conditional type. -/
def inferredType : Reading Tree := do
  expectWord "infer"
  let name ← identifier
  let noConditional := (← read).noConditional
  let bound ← attempt do
    expectWord "extends"
    let bound ← withConditional false (self .type)
    if !noConditional && (← isMark "?") then failure
    return bound
  return .node (.inferredType name) bound.toList

/-- A type operator and its operand. -/
def typeOperand : Reading Tree := do
  if ← isAnyWord ["keyof", "unique", "readonly"] then
    advance
    return .plain .typeOperator [← self .typeOperand]
  if ← isWord "infer" then return ← inferredType self
  postfixType self

/-! ## Unions, functions and conditional types -/

/-- A member of a union or of an intersection. -/
def operandOrFunctionType : Reading Tree := do
  if ← beginsConstructorType then return ← constructorType self
  if ← isAnyMark ["(", "<"] <&&> beginsFunctionType self then return ← functionType self
  self .typeOperand

/-- Types joined by `separator`, which may also stand before the first. -/
def joinedTypes (separator : String) (item : Reading Tree) : Reading Tree := do
  let _ ← eatMark separator
  match ← separatedBy separator item with
  | [single] => return single
  | items => return .plain .typeOperator items

def unionType : Reading Tree := joinedTypes "|" (joinedTypes "&" (operandOrFunctionType self))

def anyType : Reading Tree := do
  if ← beginsConstructorType then return ← constructorType self
  if ← isAnyMark ["(", "<"] <&&> beginsFunctionType self then return ← functionType self
  let checked ← unionType self
  if ← pure !(← read).noConditional <&&> onSameLine <&&> eatWord "extends" then
    let bound ← withConditional false (self .type)
    expectMark "?"
    let yes ← withConditional true (self .type)
    expectMark ":"
    let no ← withConditional true (self .type)
    return .plain .typeOperator [checked, .node (.scope .conditional) [bound, yes], no]
  return checked

end CodeAtlas.Script.Reading
