import CodeAtlas.Json.Value
import CodeAtlas.Text.Cut

/-!
# Reading JSON

The grammar of JSON, read without leniency: no comments, no comma before a closing bracket,
nothing after the value but blanks. Each reader takes the characters that are left and answers
with a result and the characters after it. A text is read as the `serde_json` package reads it;
the limits that it sets to nesting and to numbers are up to those who use the value.
-/

namespace CodeAtlas.Json

/-- The characters that may stand between the tokens of a document. -/
def isJsonBlank (c : Char) : Bool := c == ' ' || c == '\t' || c == '\n' || c == '\r'

def skipBlanks (text : List Char) : List Char := text.dropWhile isJsonBlank

/-! ## Strings -/

/-- A character of a string, or a UTF-16 unit that is named by an escape. -/
inductive StringPart where
  | char (c : Char)
  | unit (n : Nat)
deriving DecidableEq, Repr

def digitValue? (c : Char) : Option Nat :=
  if c.isDigit then some (c.toNat - 48)
  else if 'a' ≤ c ∧ c ≤ 'f' then some (c.toNat - 87)
  else if 'A' ≤ c ∧ c ≤ 'F' then some (c.toNat - 55)
  else none

/-- The unit that four hexadecimal digits name. -/
def unit? (a b c d : Char) : Option Nat := do
  return (((← digitValue? a) * 16 + (← digitValue? b)) * 16 + (← digitValue? c)) * 16 +
    (← digitValue? d)

/-- The character that an escape of one letter stands for. -/
def escaped? : Char → Option Char
  | '"' => some '"'
  | '\\' => some '\\'
  | '/' => some '/'
  | 'b' => some (Char.ofNat 8)
  | 'f' => some (Char.ofNat 12)
  | 'n' => some '\n'
  | 'r' => some '\r'
  | 't' => some '\t'
  | _ => none

/-- The parts of a string after its opening quote, and what follows its closing quote. -/
def stringParts : List Char → Option (List StringPart × List Char)
  | [] => none
  | '\\' :: 'u' :: a :: b :: c :: d :: r => do
    let n ← unit? a b c d
    let (parts, rest) ← stringParts r
    return (.unit n :: parts, rest)
  | '\\' :: e :: r => do
    let c ← escaped? e
    let (parts, rest) ← stringParts r
    return (.char c :: parts, rest)
  | c :: r =>
    if c = '"' then some ([], r)
    else if c.toNat < 0x20 || c = '\\' then none
    else do
      let (parts, rest) ← stringParts r
      return (.char c :: parts, rest)

/-- The characters that the parts of a string spell. Two units of a surrogate pair spell one
character, and a unit of a pair that stands alone spells none. -/
def spelled : List StringPart → Option (List Char)
  | [] => some []
  | .char c :: r => (spelled r).map (c :: ·)
  | .unit n :: r =>
    if 0xD800 ≤ n ∧ n ≤ 0xDBFF then
      match r with
      | .unit m :: r' =>
        if 0xDC00 ≤ m ∧ m ≤ 0xDFFF then
          (spelled r').map (Char.ofNat (0x10000 + (n - 0xD800) * 0x400 + (m - 0xDC00)) :: ·)
        else none
      | _ => none
    else if 0xDC00 ≤ n ∧ n ≤ 0xDFFF then none
    else (spelled r).map (Char.ofNat n :: ·)

def readString (text : List Char) : Option (Option String × List Char) := do
  let (parts, rest) ← stringParts text
  return ((spelled parts).map String.ofList, rest)

/-! ## Numbers -/

/-- Splits off the digits at the beginning of a text, of which there is at least one. -/
def readDigits (text : List Char) : Option (List Char × List Char) :=
  match text.takeWhile Char.isDigit with
  | [] => none
  | digits => some (digits, text.dropWhile Char.isDigit)

/-- The integer part of a number: a zero, or digits that begin with none. -/
def readInteger : List Char → Option (List Char × List Char)
  | '0' :: r =>
    match r with
    | d :: _ => if d.isDigit then none else some (['0'], r)
    | [] => some (['0'], r)
  | text => readDigits text

def readFraction : List Char → Option (List Char × List Char)
  | '.' :: r => do
    let (digits, rest) ← readDigits r
    return ('.' :: digits, rest)
  | text => some ([], text)

def readExponent : List Char → Option (List Char × List Char)
  | e :: r =>
    if e = 'e' || e = 'E' then
      match r with
      | s :: r' =>
        if s = '+' || s = '-' then do
          let (digits, rest) ← readDigits r'
          return (e :: s :: digits, rest)
        else do
          let (digits, rest) ← readDigits r
          return (e :: digits, rest)
      | [] => none
    else some ([], e :: r)
  | [] => some ([], [])

def readNumber (text : List Char) : Option (String × List Char) := do
  let (sign, rest) := match text with
    | '-' :: r => (['-'], r)
    | r => ([], r)
  let (whole, rest) ← readInteger rest
  let (fraction, rest) ← readFraction rest
  let (exponent, rest) ← readExponent rest
  return (String.ofList (sign ++ whole ++ fraction ++ exponent), rest)

/-! ## Values -/

/-- What follows `word` in a text that begins with it. -/
def readWord (word : String) (text : List Char) : Option (List Char) :=
  Text.dropPrefixChars? word.toList text

mutual

/-- A value; `fuel` bounds the number of steps. -/
def readValue : (fuel : Nat) → List Char → Option (Value × List Char)
  | 0, _ => none
  | fuel + 1, text =>
    match skipBlanks text with
    | [] => none
    | '"' :: r => do
      let (text, rest) ← readString r
      return (.string text, rest)
    | '[' :: r =>
      match skipBlanks r with
      | ']' :: rest => some (.list [], rest)
      | _ => do
        let (items, rest) ← readItems fuel r
        return (.list items, rest)
    | '{' :: r =>
      match skipBlanks r with
      | '}' :: rest => some (.object [], rest)
      | _ => do
        let (members, rest) ← readMembers fuel r
        return (.object members, rest)
    | c :: r =>
      if c = 'n' then (readWord "ull" r).map (.null, ·)
      else if c = 't' then (readWord "rue" r).map (.bool true, ·)
      else if c = 'f' then (readWord "alse" r).map (.bool false, ·)
      else (readNumber (c :: r)).map fun (literal, rest) => (.number literal, rest)

/-- The items of a list up to its closing bracket. -/
def readItems : (fuel : Nat) → List Char → Option (List Value × List Char)
  | 0, _ => none
  | fuel + 1, text => do
    let (item, rest) ← readValue fuel text
    match skipBlanks rest with
    | ',' :: r => do
      let (items, rest) ← readItems fuel r
      return (item :: items, rest)
    | ']' :: rest => return ([item], rest)
    | _ => none

/-- The members of an object up to its closing brace. -/
def readMembers : (fuel : Nat) → List Char → Option (List (Option String × Value) × List Char)
  | 0, _ => none
  | fuel + 1, text =>
    match skipBlanks text with
    | '"' :: r => do
      let (key, rest) ← readString r
      match skipBlanks rest with
      | ':' :: r => do
        let (value, rest) ← readValue fuel r
        match skipBlanks rest with
        | ',' :: r => do
          let (members, rest) ← readMembers fuel r
          return ((key, value) :: members, rest)
        | '}' :: rest => return ([(key, value)], rest)
        | _ => none
      | _ => none
    | _ => none

end

/-- The value of a document. Every step but the last of a value takes at least one character, so
twice the length bounds the steps. -/
def read (text : String) : Option Value :=
  match readValue (2 * text.toList.length + 2) text.toList with
  | some (value, rest) => if skipBlanks rest = [] then some value else none
  | none => none

end CodeAtlas.Json
