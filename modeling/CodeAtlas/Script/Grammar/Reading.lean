import CodeAtlas.Script.Dialect
import CodeAtlas.Script.Token
import CodeAtlas.Script.Tree

/-!
# Reading tokens

The grammar accepts what the `oxc_parser` package accepts and builds the trees of `Script.Tree`, but
words its faults in its own way.

The state and the steps of the grammar. A reading either fails, which means that the text is
given up, or yields a result and the cursor behind it; a fault that does not stop the reading is
noted in the cursor. Going back is free: a reading that is tried and fails leaves the cursor as
it was.

A production reads smaller constructs through the argument `self`, which stands for the whole
grammar one level further down; `Script.Grammar` closes the circle. So no production calls
itself, and the depth of a reading is a number that the length of the text bounds.
-/

namespace CodeAtlas.Script

/-- The constructs that a production can ask for. -/
inductive Goal where
  /-- A statement; `single` where only one may stand, as after `if`. -/
  | statement (single : Bool)
  /-- Expressions separated by commas. -/
  | expression
  /-- An expression without a comma. After the question mark of a conditional expression a colon
  ends the parameters of an arrow function instead of beginning the type of its result, unless
  `resultType` holds. -/
  | assignment (resultType : Bool)
  /-- The operand of an operator. -/
  | unary
  /-- An operand without operators, as after `extends` or `@`. -/
  | operand
  /-- What `new` applies to: an operand without calls. -/
  | callee
  /-- A binding pattern. -/
  | pattern
  | type
  /-- A type operator and its operand, as one member of a union. -/
  | typeOperand
  /-- A JSX element; an inner one stands among the children of another. -/
  | jsxElement (inner : Bool)
  /-- What follows the keyword `namespace` or a point in its name. -/
  | namespaceTail

/-- What a production depends on apart from the text. -/
structure Surroundings where
  dialect : Dialect
  /-- More than the number of tokens of the text: no repetition is longer. -/
  limit : Nat
  /-- `in` ends an expression here instead of being an operator. -/
  noIn : Bool
  inGenerator : Bool
  inAsync : Bool
  inFunction : Bool
  ambient : Bool
  inDecorator : Bool
  /-- `extends` ends a type here instead of making it conditional. -/
  noConditional : Bool

/-- The place of a reading in the text. -/
structure Cursor where
  lexeme : Lexeme
  /-- A fault was found that does not stop the reading. -/
  faulty : Bool
  /-- How many object literals so far hold a default value, which only a pattern may. -/
  defaults : Nat

abbrev Reading := ReaderT Surroundings (StateT Cursor Option)

abbrev Grammar := Goal → Reading Tree

namespace Reading

/-! ## The current token -/

def token : Reading Token := return (← get).lexeme.token

/-- A line ends before the current token. -/
def afterLineEnd : Reading Bool := return (← get).lexeme.afterLineEnd

def onSameLine : Reading Bool := return !(← afterLineEnd)

def setLexeme (l : Lexeme) : Reading Unit :=
  modify fun c => { c with lexeme := l, faulty := c.faulty || l.faulty }

def advance : Reading Unit := do setLexeme (Lexeme.next (← get).lexeme.rest)

def advanceJsxChild : Reading Unit := do setLexeme (Lexeme.nextJsxChild (← get).lexeme.rest)

def advanceJsxValue : Reading Unit := do setLexeme (Lexeme.nextJsxValue (← get).lexeme.rest)

/-- Notes a fault and goes on. -/
def fault : Reading Unit := modify fun c => { c with faulty := true }

def isMark (text : String) : Reading Bool := return (← token) == .mark text

def isWord (name : String) : Reading Bool := return (← token) == .word name false

def isAnyMark (texts : List String) : Reading Bool := do
  match ← token with
  | .mark text => return texts.contains text
  | _ => return false

def isAnyWord (names : List String) : Reading Bool := do
  match ← token with
  | .word name false => return names.contains name
  | _ => return false

def eatMark (text : String) : Reading Bool := do
  if ← isMark text then advance; return true
  return false

def eatWord (name : String) : Reading Bool := do
  if ← isWord name then advance; return true
  return false

def expectMark (text : String) : Reading Unit := do
  unless ← eatMark text do failure

def expectWord (name : String) : Reading Unit := do
  unless ← eatWord name do failure

/-! ## Trying and repeating -/

/-- The result of `r` if it succeeds; otherwise the cursor stays. -/
def attempt {α : Type} (r : Reading α) : Reading (Option α) := (some <$> r) <|> pure none

/-- Whether `r` succeeds and answers yes; the cursor stays. -/
def lookahead (r : Reading Bool) : Reading Bool := fun s c =>
  some (((r s c).map (·.1)).getD false, c)

/-- Repeats `step` from `state` until it answers with a result, at most `fuel` times. -/
def repeatFor {σ α : Type} (step : σ → Reading (σ ⊕ α)) : Nat → σ → Reading α
  | 0, _ => failure
  | fuel + 1, state => do
    match ← step state with
    | .inl state => repeatFor step fuel state
    | .inr result => return result

def repeatFrom {σ α : Type} (state : σ) (step : σ → Reading (σ ⊕ α)) : Reading α := do
  repeatFor step (← read).limit state

def itemsUntil {α : Type} (done : Reading Bool) (item : Reading α) : Reading (List α) := do
  let items ← repeatFrom [] fun items => do
    if ← done then return .inr items
    return .inl ((← item) :: items)
  return items.reverse

/-- Reads items with commas between them until `done` holds; a comma may stand after the last. -/
def listUntil {α : Type} (done : Reading Bool) (item : Reading α) : Reading (List α) := do
  let items ← repeatFrom [] fun items => do
    if ← done then return .inr items
    let items := (← item) :: items
    if ← eatMark "," then return .inl items
    if ← done then return .inr items
    failure
  return items.reverse

def separatedBy {α : Type} (separator : String) (item : Reading α) : Reading (List α) := do
  let items ← repeatFrom [] fun items => do
    let items := (← item) :: items
    if ← eatMark separator then return .inl items
    return .inr items
  return items.reverse

def optionalWhen {α : Type} (test : Reading Bool) (r : Reading α) : Reading (Option α) := do
  if ← test then return some (← r)
  return none

/-! ## Surroundings -/

def inTypes : Reading Bool := return (← read).dialect.types

def inJsx : Reading Bool := return (← read).dialect.jsx

/-- Reads `r` where `in` is an operator. -/
def withIn {α : Type} (r : Reading α) : Reading α :=
  withReader (fun s => { s with noIn := false }) r

def withoutIn {α : Type} (r : Reading α) : Reading α :=
  withReader (fun s => { s with noIn := true }) r

/-- Reads the body of a function or of a class member. -/
def asBody {α : Type} (isAsync isGenerator : Bool) (r : Reading α) : Reading α :=
  withReader (fun s =>
    { s with inAsync := isAsync, inGenerator := isGenerator, inFunction := true, noIn := false,
             inDecorator := false, noConditional := false }) r

def asAmbient {α : Type} (ambient : Bool) (r : Reading α) : Reading α :=
  withReader (fun s => { s with ambient := s.ambient || ambient }) r

/-- Reads `r` where a type may or may not be conditional. -/
def withConditional {α : Type} (allowed : Bool) (r : Reading α) : Reading α :=
  withReader (fun s => { s with noConditional := !allowed }) r

/-! ## Ends of statements -/

/-- Whether a statement may end before the current token. -/
def canEnd : Reading Bool := do
  match ← token with
  | .endOfText => return true
  | .mark ";" => return true
  | .mark "\x7d" => return true
  | _ => afterLineEnd

/-- Ends a statement: at a semicolon, or where one may be left out. -/
def endStatement : Reading Unit := do
  unless ← canEnd do failure
  let _ ← eatMark ";"

/-! ## Names -/

def reservedWords : List String :=
  ["break", "case", "catch", "class", "const", "continue", "debugger", "default", "delete", "do",
   "else", "enum", "export", "extends", "false", "finally", "for", "function", "if", "import",
   "in", "instanceof", "new", "null", "return", "super", "switch", "this", "throw", "true",
   "try", "typeof", "var", "void", "while", "with"]

def isIdentifier : Reading Bool := do
  match ← token with
  | .word name false => return !reservedWords.contains name
  | .word _ true => return true
  | _ => return false

def identifier : Reading String := do
  match ← token with
  | .word name escaped =>
    if !escaped && reservedWords.contains name then failure
    advance
    return name
  | _ => failure

/-- A word, reserved or not. -/
def anyWord : Reading String := do
  match ← token with
  | .word name _ => advance; return name
  | _ => failure

def isAnyName : Reading Bool := do
  match ← token with
  | .word .. => return true
  | _ => return false

def stringValue : Reading String := do
  match ← token with
  | .string value => advance; return value
  | _ => failure

def isString : Reading Bool := do
  match ← token with
  | .string _ => return true
  | _ => return false

/-- Whether the name of a property can begin at the current token. -/
def beginsPropertyName : Reading Bool := do
  match ← token with
  | .word .. | .string _ | .number | .privateName _ | .mark "[" => return true
  | _ => return false

/-- The name of a property: an expression if it is computed, else the name itself if it has
one. -/
inductive PropertyName where
  | computed (key : Tree)
  | plain (name : Option String)

/-- The parts of a tree that a property name contributes. -/
def PropertyName.parts : PropertyName → List Tree
  | .computed key => [key]
  | .plain _ => []

variable (self : Grammar)

def propertyName : Reading PropertyName := do
  match ← token with
  | .word name _ => advance; return .plain (some name)
  | .string value => advance; return .plain (some value)
  | .number => advance; return .plain none
  | .privateName _ => advance; return .plain none
  | .mark "[" =>
    advance
    let key ← withIn (self (.assignment true))
    expectMark "]"
    return .computed key
  | _ => failure

/-! ## Angle brackets -/

/-- Whether type parameters or type arguments can begin at the current token. -/
def isLeftAngle : Reading Bool := isAnyMark ["<", "<<"]

/-- Reads one opening angle bracket, also where two stand together. -/
def eatLeftAngle : Reading Unit := do
  match ← token with
  | .mark "<" => advance
  | .mark "<<" =>
    let l := (← get).lexeme
    let rest := l.start.tail
    setLexeme { l with token := .mark "<", start := rest, rest := rest.tail, afterLineEnd := false }
  | _ => failure

/-- Takes all of an operator that begins with a closing angle bracket as the current token. -/
def joinRightAngle : Reading Unit := do
  if ← isMark ">" then
    let l := (← get).lexeme
    match scanRightAngle l.start with
    | some (text, rest) => setLexeme { l with token := .mark text, rest := rest }
    | none => return

end Reading

end CodeAtlas.Script
