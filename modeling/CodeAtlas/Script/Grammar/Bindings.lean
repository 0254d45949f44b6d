import CodeAtlas.Script.Grammar.Reading

/-!
# Binding patterns and parameters

The places where a script names something new: patterns of variables, parameters of functions
and of types of functions, and type parameters. A default value stands beside the pattern that
it belongs to, and the key of a property beside the pattern only if it is computed.
-/

namespace CodeAtlas.Script.Reading

variable (self : Grammar)

/-- A type after a colon, where types are admitted. -/
def typeAfterColon : Reading (List Tree) := do
  if ← inTypes <&&> eatMark ":" then
    return [← withConditional true (self .type)]
  return []

def patternWithDefault : Reading Tree := do
  let target ← self .pattern
  if ← eatMark "=" then
    return .node .defaulted [target, ← withIn (self (.assignment true))]
  return target

def arrayElement : Reading Tree := do
  if ← isMark "," then return .leaf .elision
  if ← eatMark "..." then return .node .restPattern [← self .pattern]
  patternWithDefault self

def objectElement : Reading Tree := do
  if ← eatMark "..." then return .node .restPattern [← self .pattern]
  let shorthand ← isIdentifier
  match ← propertyName self with
  | .computed key =>
    expectMark ":"
    return .node .patternProperty [key, ← patternWithDefault self]
  | .plain name? =>
    if ← eatMark ":" then
      return .node .patternProperty [← patternWithDefault self]
    match shorthand, name? with
    | true, some name =>
      if ← eatMark "=" then
        let value ← withIn (self (.assignment true))
        return .node .patternProperty [.node .defaulted [.node (.binding name) [], value]]
      return .node .patternProperty [.node (.binding name) []]
    | _, _ => failure

def bindingPattern : Reading Tree := do
  if ← eatMark "[" then
    let elements ← listUntil (isMark "]") (arrayElement self)
    expectMark "]"
    return .node .arrayPattern elements
  if ← eatMark "\x7b" then
    let properties ← listUntil (isMark "\x7d") (objectElement self)
    expectMark "\x7d"
    return .node .objectPattern properties
  return .node (.binding (← identifier)) []

/-! ## Decorators and modifiers -/

/-- The decorators at the current token. -/
def decorators : Reading (List Tree) :=
  itemsUntil (not <$> isMark "@") do
    advance
    let target ← withReader (fun s => { s with inDecorator := true }) (self .operand)
    return .plain .decorator [target]

/-- Whether what a modifier may stand before begins at the current token. -/
def mayFollowModifier : Reading Bool := do
  if ← beginsPropertyName then return true
  isAnyMark ["\x7b", "*", "..."]

/-- Drops the modifiers before a parameter. -/
def parameterModifiers : Reading Unit :=
  repeatFrom () fun _ => do
    if !(← inTypes) then return .inr ()
    if ← isAnyWord ["public", "private", "protected", "readonly", "override"] then
      if ← lookahead (do advance; return !(← afterLineEnd) && (← mayFollowModifier)) then
        advance
        return .inl ()
    return .inr ()

/-! ## Parameters -/

def parameter : Reading Tree := do
  let marks ← decorators self
  parameterModifiers
  if (← inTypes) && (← isWord "this") then
    advance
    return .plain .parameter (marks ++ (← typeAfterColon self))
  if ← eatMark "..." then
    let target ← self .pattern
    let types ← typeAfterColon self
    return .plain .parameter (marks ++ .node .restPattern [target] :: types)
  let target ← self .pattern
  if ← inTypes then let _ ← eatMark "?"
  let types ← typeAfterColon self
  if ← eatMark "=" then
    let value ← withIn (self (.assignment true))
    return .plain .parameter (marks ++ .node .defaulted [target, value] :: types)
  return .plain .parameter (marks ++ target :: types)

def parameters : Reading Tree := do
  expectMark "("
  let items ← listUntil (isMark ")") (parameter self)
  expectMark ")"
  return .node .parameters items

/-! ## Type parameters -/

def typeParameter : Reading Tree := do
  repeatFrom () fun _ => do
    if ← isAnyWord ["const", "in", "out"] then
      if ← lookahead (do advance; isAnyName) then
        advance
        return .inl ()
    return .inr ()
  let name ← identifier
  let bound ← if ← eatWord "extends" then (do return [← withConditional true (self .type)])
    else pure []
  let value ← if ← eatMark "=" then (do return [← withConditional true (self .type)]) else pure []
  return .node (.typeParameter name) (bound ++ value)

/-- Type parameters in their brackets, if there are any. -/
def typeParameters : Reading (List Tree) := do
  if (← inTypes) && (← isMark "<") then
    advance
    let items ← listUntil (isMark ">") (typeParameter self)
    if items.isEmpty then failure
    expectMark ">"
    return [.plain .typeParameters items]
  return []

end CodeAtlas.Script.Reading
