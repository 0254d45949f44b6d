import CodeAtlas.Json.Value

/-!
# Writing JSON

The text of a value over several lines: two blanks more for each level, one item or member on a
line, and brackets without anything between them for what is empty. In a string only quotes,
backslashes and control characters are escaped.
-/

namespace CodeAtlas.Json

def hexDigit (n : Nat) : Char := Nat.digitChar n

/-- A character as it stands in a string. -/
def escapeChar (c : Char) : List Char :=
  if c = '"' then ['\\', '"']
  else if c = '\\' then ['\\', '\\']
  else if c = '\n' then ['\\', 'n']
  else if c = '\r' then ['\\', 'r']
  else if c = '\t' then ['\\', 't']
  else if c.toNat = 8 then ['\\', 'b']
  else if c.toNat = 12 then ['\\', 'f']
  else if c.toNat < 0x20 then
    ['\\', 'u', '0', '0', hexDigit (c.toNat / 16), hexDigit (c.toNat % 16)]
  else [c]

def quoteText (text : String) : String :=
  "\"" ++ String.ofList (text.toList.flatMap escapeChar) ++ "\""

def newLine (level : Nat) : String := "\n" ++ String.ofList (List.replicate (2 * level) ' ')

mutual

/-- The text of a value that begins on a line of the given level. A string without a text is
written as the character that stands for a faulty one. -/
def writeAt (level : Nat) : Value → String
  | .null => "null"
  | .bool value => if value then "true" else "false"
  | .number literal => literal
  | .string text => quoteText (text.getD "\uFFFD")
  | .list [] => "[]"
  | .list (v :: vs) =>
    "[" ++ newLine (level + 1) ++ writeAt (level + 1) v ++ writeItems (level + 1) vs ++
      newLine level ++ "]"
  | .object [] => "\x7b\x7d"
  | .object ((key, v) :: rest) =>
    "\x7b" ++ newLine (level + 1) ++ quoteText (key.getD "\uFFFD") ++ ": " ++
      writeAt (level + 1) v ++ writeMembers (level + 1) rest ++ newLine level ++ "\x7d"

/-- The text of the items of a list after the first. -/
def writeItems (level : Nat) : List Value → String
  | [] => ""
  | v :: vs => "," ++ newLine level ++ writeAt level v ++ writeItems level vs

/-- The text of the members of an object after the first. -/
def writeMembers (level : Nat) : List (Option String × Value) → String
  | [] => ""
  | (key, v) :: rest =>
    "," ++ newLine level ++ quoteText (key.getD "\uFFFD") ++ ": " ++ writeAt level v ++
      writeMembers level rest

end

def write (value : Value) : String := writeAt 0 value

end CodeAtlas.Json
