import CodeAtlas.Script.Grammar.Functions

/-!
# JSX elements

An element, its attributes and its children. A tag whose name begins with a capital letter, or
with a letter beyond ASCII, mentions a variable, and so does the first name of a dotted tag;
other tags are text.
-/

namespace CodeAtlas.Script.Reading

variable (self : Grammar)

/-- A name in a tag, to which hyphens belong. -/
def jsxWord : Reading String := do
  let l := (← get).lexeme
  match Lexeme.jsxName? l with
  | none => failure
  | some (name, rest) =>
    setLexeme { l with rest := rest }
    advance
    return name

/-- Whether a tag of this name mentions a variable. -/
def isComponentName (name : String) : Bool :=
  match name.toList with
  | [] => false
  | c :: _ => (c.isUpper || c.toNat ≥ 128) && !name.toList.contains '-'

/-- The name of a tag: the variable it mentions, and its text, by which the closing tag is
matched. -/
def tagName : Reading (List Tree × String) := do
  let first ← jsxWord
  if ← eatMark ":" then
    let second ← jsxWord
    return ([], first ++ ":" ++ second)
  if ← isMark "." then
    let names ← itemsUntil (not <$> isMark ".") do
      advance
      jsxWord
    let mention := if first == "this" then Tree.leaf .this else .node (.reference first .value) []
    return ([mention], ".".intercalate (first :: names))
  if isComponentName first then return ([.node (.reference first .value) []], first)
  return ([], first)

def attributeValue : Reading (List Tree) := do
  match ← token with
  | .string _ => advance; return []
  | .mark "\x7b" =>
    advance
    let value ← withIn (self .expression)
    expectMark "\x7d"
    return [.plain .jsxContainer [value]]
  | .mark "<" => return [← self (.jsxElement false)]
  | _ => failure

def jsxAttribute : Reading Tree := do
  if ← eatMark "\x7b" then
    expectMark "..."
    let value ← withIn (self .expression)
    expectMark "\x7d"
    return .plain .jsxSpread [value]
  let _ ← jsxWord
  if ← eatMark ":" then let _ ← jsxWord
  if ← isMark "=" then
    advanceJsxValue
    return .plain .jsxAttribute (← attributeValue self)
  return .leaf .jsxAttribute

/-- Reads the closing bracket of a tag. What follows depends on where the element stands. -/
def closeTag (inner : Bool) : Reading Unit := do
  unless ← isMark ">" do failure
  if inner then advanceJsxChild else advance

/-- The children of an element, up to the opening bracket of its closing tag. -/
def jsxChildren : Reading (List Tree) := do
  let children ← repeatFrom [] fun children => do
    match ← token with
    | .jsxText => advanceJsxChild; return .inl children
    | .mark "\x7b" =>
      advance
      let content ← if ← isMark "\x7d" then pure [] else (do
        let _ ← eatMark "..."
        return [← withIn (self .expression)])
      unless ← isMark "\x7d" do failure
      advanceJsxChild
      return .inl (.plain .jsxContainer content :: children)
    | .mark "<" =>
      if ← lookahead (do advance; isMark "/") then return .inr children
      return .inl ((← self (.jsxElement true)) :: children)
    | _ => failure
  return children.reverse

def jsxElement (inner : Bool) : Reading Tree := do
  expectMark "<"
  if ← isMark ">" then
    advanceJsxChild
    let children ← jsxChildren self
    expectMark "<"
    expectMark "/"
    closeTag inner
    return .plain .jsxElement children
  let (mention, name) ← tagName
  let generics ← if ← inTypes then typeArgumentsHere self else pure []
  let attributes ← itemsUntil (isAnyMark ["/", ">"]) (jsxAttribute self)
  if ← eatMark "/" then
    closeTag inner
    return .plain .jsxElement (mention ++ generics ++ attributes)
  advanceJsxChild
  let children ← jsxChildren self
  expectMark "<"
  expectMark "/"
  if ← isMark ">" then fault
  else
    let (_, closing) ← tagName
    unless closing == name do fault
  closeTag inner
  return .plain .jsxElement (mention ++ generics ++ attributes ++ children)

end CodeAtlas.Script.Reading
