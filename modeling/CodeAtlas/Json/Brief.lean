import CodeAtlas.Json.Magnitude
import CodeAtlas.Text.Blank

/-!
# The brief form of values

A value as people write it into a variable: `[a, b]` is a list, a group in braces such as
`key=value` an object, `true` and `3` are what they look like, and whatever has no other meaning is
text. Quotes around a text make it a text in any case. A variable that does not follow this form
as a whole is the text that it is. The form is that of the `figment` package for variables of the
environment.
-/

namespace CodeAtlas.Json

/-- The characters that may stand around a value. -/
def isBriefBlank (c : Char) : Bool :=
  c == ' ' || c == '\t' || c == '\n' || c == '\r' || c.toNat == 12

/-- The characters that a text without quotes does not hold. -/
def isSeparator (c : Char) : Bool := c == ',' || c == '{' || c == '}' || c == '[' || c == ']'

/-- The characters of a key without quotes. -/
def isKeyChar (c : Char) : Bool := c.isAlphanum || c == '_' || c == '-'

def skipBrief (text : List Char) : List Char := text.dropWhile isBriefBlank

/-! ## Quoted texts -/

/-- The number that some hexadecimal digits name. -/
def hexValue? (digits : List Char) : Option Nat :=
  digits.foldlM (fun n c => (digitValue? c).map (16 * n + ·)) 0

/-- The character of a given number, unless the number is half of a surrogate pair or too large. -/
def scalar? (n : Nat) : Option Char := if n.isValidChar then some (Char.ofNat n) else none

/-- A quoted text after its opening quote, and what follows its closing quote. -/
def readQuoted : (fuel : Nat) → List Char → Option (List Char × List Char)
  | 0, _ => none
  | _, [] => none
  | fuel + 1, '\\' :: e :: r => do
    let digits := if e = 'u' then 4 else if e = 'U' then 8 else 0
    let c ←
      if digits = 0 then (if e = '/' then none else escaped? e)
      else if r.length < digits then none
      else (hexValue? (r.take digits)).bind scalar?
    let (text, rest) ← readQuoted fuel (r.drop digits)
    return (c :: text, rest)
  | fuel + 1, c :: r =>
    if c = '"' then some ([], r)
    else if c = '\\' || (c.toNat < 0x20 && c ≠ '\t') || c.toNat = 0x7F then none
    else do
      let (text, rest) ← readQuoted fuel r
      return (c :: text, rest)

/-! ## Texts without quotes -/

/-- A text without the blanks around it. -/
def trimmed (text : List Char) : List Char :=
  ((text.dropWhile Text.isBlank).reverse.dropWhile Text.isBlank).reverse

def isExponent : List Char → Bool
  | [] => true
  | e :: r =>
    let digits := match r with
      | '+' :: d => d
      | '-' :: d => d
      | d => d
    (e = 'e' || e = 'E') && !digits.isEmpty && digits.all Char.isDigit

/-- A text without a sign in front. -/
def unsigned : List Char → List Char
  | '+' :: r => r
  | '-' :: r => r
  | r => r

/-- Whether a text is a number with a point. There are digits before or after the point, or on
both sides. -/
def isFractional (text : List Char) : Bool :=
  let body := unsigned text
  let whole := body.takeWhile Char.isDigit
  match body.dropWhile Char.isDigit with
  | '.' :: r =>
    let fraction := r.takeWhile Char.isDigit
    !(whole.isEmpty && fraction.isEmpty) && isExponent (r.dropWhile Char.isDigit)
  | _ => false

/-- How far a number of 64 bits with a sign may be below zero. -/
def negativeLimit : Nat := Nat.pow 2 63

/-- The number that digits name, perhaps after a sign, within 64 bits. -/
def integer? (text : List Char) : Option Int := do
  let n ← count? (unsigned text)
  if text.head? = some '-' then
    if n ≤ negativeLimit then some (-(n : Int)) else none
  else some n

/-- The value of a text without quotes: a number, or itself. -/
def plainValue (text : List Char) : Value :=
  if isFractional text then .number (String.ofList text)
  else
    match integer? text with
    | some n => .number (toString n)
    | none => .ofText (String.ofList text)

/-! ## Values -/

def readKey : List Char → Option (String × List Char)
  | '"' :: r => (readQuoted (r.length + 1) r).map fun (key, rest) => (String.ofList key, rest)
  | text =>
    match text.takeWhile isKeyChar with
    | [] => none
    | key => some (String.ofList key, text.dropWhile isKeyChar)

/-- What follows the blanks after a value. -/
def closeValue (found : Value × List Char) : Value × List Char := (found.1, skipBrief found.2)

mutual

/-- A value with the blanks around it; `fuel` bounds the number of steps. -/
def readBriefValue : (fuel : Nat) → List Char → Option (Value × List Char)
  | 0, _ => none
  | fuel + 1, text =>
    let text := skipBrief text
    match Text.dropPrefixChars? "true".toList text with
    | some rest => some (closeValue (.bool true, rest))
    | none =>
      match Text.dropPrefixChars? "false".toList text with
      | some rest => some (closeValue (.bool false, rest))
      | none =>
        match text with
        | '{' :: r => (readBriefMembers fuel r).map fun (members, rest) =>
          closeValue (.ofMembers members, rest)
        | '[' :: r => (readBriefItems fuel r).map fun (items, rest) =>
          closeValue (.list items, rest)
        | '"' :: r => (readQuoted (r.length + 1) r).map fun (text, rest) =>
          closeValue (.ofText (String.ofList text), rest)
        | '\'' :: r =>
          match r with
          | c :: '\'' :: rest => some (closeValue (.ofText (String.ofList [c]), rest))
          | _ => none
        | text =>
          let body := trimmed (text.takeWhile fun c => !isSeparator c)
          some (plainValue body, text.dropWhile fun c => !isSeparator c)

/-- The items of a list up to its closing bracket, which may follow a comma. -/
def readBriefItems : (fuel : Nat) → List Char → Option (List Value × List Char)
  | 0, _ => none
  | _ + 1, ']' :: rest => some ([], rest)
  | fuel + 1, text => do
    let (item, rest) ← readBriefValue fuel text
    match rest with
    | ',' :: r => do
      let (items, rest) ← readBriefItems fuel r
      return (item :: items, rest)
    | ']' :: rest => return ([item], rest)
    | _ => none

/-- The members of an object up to its closing brace, which may follow a comma. -/
def readBriefMembers : (fuel : Nat) → List Char → Option (List (String × Value) × List Char)
  | 0, _ => none
  | _ + 1, '}' :: rest => some ([], rest)
  | fuel + 1, text => do
    let (key, rest) ← readKey (skipBrief text)
    match skipBrief rest with
    | '=' :: r => do
      let (value, rest) ← readBriefValue fuel r
      match rest with
      | ',' :: r => do
        let (members, rest) ← readBriefMembers fuel r
        return ((key, value) :: members, rest)
      | '}' :: rest => return ([(key, value)], rest)
      | _ => none
    | _ => none

end

/-- The value that a text stands for. -/
def readBrief (text : String) : Value :=
  match readBriefValue (2 * text.toList.length + 2) text.toList with
  | some (value, []) => value
  | _ => .ofText text

end CodeAtlas.Json
