import CodeAtlas.Text.Blank
import CodeAtlas.Text.Identifier

/-!
# Tokens of a script

`Lexeme.next` reads one token from the characters that are left. The next token depends on
where it is read: a slash may begin a regular expression, a closing brace may continue a
template, and the text between JSX tags has tokens of its own; each of these readings is a
function here, and the grammar chooses between them. Every reading is one pass over the
characters.
-/

namespace CodeAtlas.Script

open CodeAtlas.Text

inductive Token where
  | endOfText
  /-- Characters that begin no token. -/
  | invalid
  /-- An identifier or keyword; one written with an escape is never a keyword. -/
  | word (name : String) (escaped : Bool)
  | privateName (name : String)
  | number
  | string (value : String)
  /-- A piece of a template, up to its end (`closed`) or to the next substitution. -/
  | template (closed : Bool)
  | regularExpression
  | jsxText
  | mark (text : String)
deriving DecidableEq, Repr

structure Lexeme where
  token : Token
  /-- The text from the first character of the token on. -/
  start : List Char
  /-- The text after the token. -/
  rest : List Char
  /-- A line ends between the token before and this one. -/
  afterLineEnd : Bool
  /-- Something is wrong with the token, and reading goes on. -/
  faulty : Bool

/-! ## Between the tokens -/

/-- Where a reading of blanks and comments stands. -/
inductive Between where
  | blanks | lineComment | blockComment

/-- What is left after blanks and comments. -/
structure Gap where
  rest : List Char
  sawLineEnd : Bool
  /-- A comment is not closed. -/
  unclosed : Bool

def skipGap : Between → Bool → List Char → Gap
  | .blockComment, lineEnd, [] => ⟨[], lineEnd, true⟩
  | _, lineEnd, [] => ⟨[], lineEnd, false⟩
  | .blanks, lineEnd, '/' :: '/' :: r => skipGap .lineComment lineEnd r
  | .blanks, lineEnd, '/' :: '*' :: r => skipGap .blockComment lineEnd r
  | .blockComment, lineEnd, '*' :: '/' :: r => skipGap .blanks lineEnd r
  | .blanks, lineEnd, c :: r =>
    if isLineEnd c then skipGap .blanks true r
    else if isScriptBlank c then skipGap .blanks lineEnd r
    else ⟨c :: r, lineEnd, false⟩
  | .lineComment, lineEnd, c :: r =>
    if isLineEnd c then skipGap .blanks true r else skipGap .lineComment lineEnd r
  | .blockComment, lineEnd, c :: r => skipGap .blockComment (lineEnd || isLineEnd c) r

/-! ## Words -/

def hexValue? (c : Char) : Option Nat :=
  if c.isDigit then some (c.toNat - 48)
  else if 'a' ≤ c ∧ c ≤ 'f' then some (c.toNat - 87)
  else if 'A' ≤ c ∧ c ≤ 'F' then some (c.toNat - 55)
  else none

def hexNumber? (digits : List Char) : Option Nat :=
  digits.foldl (fun n c => do return (← n) * 16 + (← hexValue? c)) (some 0)

/-- The digits of a braced escape, read up to its closing brace. -/
def bracedDigits? : List Char → Option (List Char)
  | [] => none
  | '}' :: _ => some []
  | c :: r => if (hexValue? c).isSome then (bracedDigits? r).map (c :: ·) else none

/-- A Unicode escape, read after its `\u`: the code point, and how many characters it takes. -/
def unicodeEscape? : List Char → Option (Nat × Nat)
  | '{' :: r => do
    let digits ← bracedDigits? r
    let n ← if digits.isEmpty then none else hexNumber? digits
    if n ≤ 0x10FFFF then return (n, digits.length + 2) else none
  | a :: b :: c :: d :: _ => do return (← hexNumber? [a, b, c, d], 4)
  | _ => none

/-- A word up to its end: its characters in reverse, whether an escape occurs in it, and what
follows. The characters of an escape are read at its backslash, and the `skipped` ones that
remain of it are then dropped one by one. -/
def scanWord (skipped : Nat) (name : List Char) (escaped : Bool) :
    List Char → List Char × Bool × List Char
  | [] => (name, escaped, [])
  | c :: r =>
    if skipped ≠ 0 then scanWord (skipped - 1) name escaped r
    else if isIdentifierPart c then scanWord 0 (c :: name) escaped r
    else
      let escape := if c == '\\' && r.head? == some 'u' then unicodeEscape? r.tail else none
      match escape with
      | some (n, taken) =>
        if isIdentifierPart (Char.ofNat n) then
          scanWord (taken + 1) (Char.ofNat n :: name) true r
        else (name, escaped, c :: r)
      | none => (name, escaped, c :: r)

/-! ## Strings -/

/-- A lone surrogate, which no character stands for: the replacement character and the four
digits of the unit. -/
def loneSurrogate (n : Nat) : List Char :=
  Char.ofNat 0xFFFD :: (Nat.toDigits 16 n).map Char.toLower

/-- The characters of a code unit or code point in a string. -/
def unitChars (n : Nat) : List Char :=
  if 0xD800 ≤ n ∧ n ≤ 0xDFFF then loneSurrogate n else [Char.ofNat n]

/-- An escape of the second half of a surrogate pair, and how many characters it takes. -/
def lowSurrogate? : List Char → Option (Nat × Nat)
  | '\\' :: 'u' :: r =>
    match unicodeEscape? r with
    | some (m, taken) => if 0xDC00 ≤ m ∧ m ≤ 0xDFFF then some (m, taken + 2) else none
    | none => none
  | _ => none

/-- An escape of a string, read after its backslash: the characters it stands for, how many
characters it takes, and whether it is well formed. -/
def stringEscape : List Char → List Char × Nat × Bool
  | [] => ([], 0, false)
  | 'n' :: _ => (['\n'], 1, true)
  | 't' :: _ => (['\t'], 1, true)
  | 'r' :: _ => (['\r'], 1, true)
  | 'b' :: _ => ([Char.ofNat 8], 1, true)
  | 'v' :: _ => ([Char.ofNat 11], 1, true)
  | 'f' :: _ => ([Char.ofNat 12], 1, true)
  | '\r' :: '\n' :: _ => ([], 2, true)
  | 'x' :: a :: b :: _ =>
    match hexNumber? [a, b] with
    | some n => ([Char.ofNat n], 3, true)
    | none => ([], 1, false)
  | 'u' :: r =>
    match unicodeEscape? r with
    | none => ([], 1, false)
    | some (n, taken) =>
      if 0xD800 ≤ n ∧ n ≤ 0xDBFF then
        match lowSurrogate? (r.drop taken) with
        | some (m, more) =>
          ([Char.ofNat (0x10000 + (n - 0xD800) * 0x400 + (m - 0xDC00))], 1 + taken + more, true)
        | none => (loneSurrogate n, 1 + taken, true)
      else (unitChars n, 1 + taken, true)
  | a :: r =>
    if isLineEnd a then ([], 1, true)
    else
      match hexValue? a with
      | none => ([a], 1, true)
      | some d =>
        if 8 ≤ d then ([a], 1, true)
        else
          -- an octal escape of up to three digits
          let more := (r.take (if d ≤ 3 then 2 else 1)).takeWhile fun c => '0' ≤ c ∧ c ≤ '7'
          let n := more.foldl (fun n c => n * 8 + (c.toNat - 48)) d
          ([Char.ofNat n], 1 + more.length, true)

/-- A string up to its closing quote: the characters of its value in reverse, whether it is well
formed, and what follows; nothing if the string does not end on its line. The characters of an
escape are read at its backslash, and the `skipped` ones that remain are then dropped. -/
def scanString (quote : Char) (skipped : Nat) (value : List Char) (ok : Bool) :
    List Char → Option (List Char × Bool × List Char)
  | [] => none
  | c :: r =>
    if skipped ≠ 0 then scanString quote (skipped - 1) value ok r
    else if c == quote then some (value, ok, r)
    else if c == '\\' then
      let (chars, taken, fine) := stringEscape r
      scanString quote taken (chars.reverse ++ value) (ok && fine) r
    else if c == '\n' || c == '\r' then none
    else scanString quote 0 (c :: value) ok r

/-- A piece of a template, up to the closing backquote or the next substitution. -/
def scanTemplate : List Char → Option (Bool × List Char)
  | [] => none
  | '`' :: r => some (true, r)
  | '$' :: '{' :: r => some (false, r)
  | '\\' :: _ :: r => scanTemplate r
  | _ :: r => scanTemplate r

/-- The text of a JSX attribute, in which nothing is escaped. -/
def scanQuoted (quote : Char) : List Char → Option (List Char)
  | [] => none
  | c :: r => if c == quote then some r else scanQuoted quote r

/-- A regular expression after its opening slash, up to the end of its flags. -/
def scanRegularExpression (inClass skipped : Bool) : List Char → Option (List Char)
  | [] => none
  | c :: r =>
    if isLineEnd c then none
    else if skipped then scanRegularExpression inClass false r
    else if c == '\\' then scanRegularExpression inClass true r
    else if inClass then scanRegularExpression (c != ']') false r
    else if c == '[' then scanRegularExpression true false r
    else if c == '/' then some (r.dropWhile isIdentifierPart)
    else scanRegularExpression false false r

/-! ## Numbers -/

/-- What follows the digits of a number; an underscore may stand between two of them. -/
def scanDigits (isDigit : Char → Bool) : List Char → List Char
  | [] => []
  | c :: r =>
    if isDigit c || (c == '_' && (r.head?.map isDigit).getD false) then scanDigits isDigit r
    else c :: r

/-- An exponent, if one stands here; nothing if it has no digits. -/
def scanExponent : List Char → Option (List Char)
  | [] => some []
  | c :: r =>
    if c == 'e' || c == 'E' then
      let digits := match r with
        | '+' :: r' => r'
        | '-' :: r' => r'
        | _ => r
      match digits with
      | d :: _ => if d.isDigit then some (scanDigits Char.isDigit digits) else none
      | [] => none
    else some (c :: r)

/-- A number after its integer part. -/
def scanFraction : List Char → Option (List Char)
  | 'n' :: r => some r
  | '.' :: r => scanExponent (scanDigits Char.isDigit r)
  | r => scanExponent r

/-- Digits of another base, of which there is at least one, and the mark of a big integer. -/
def scanBased (isDigit : Char → Bool) : List Char → Option (List Char)
  | [] => none
  | c :: r =>
    if isDigit c then
      match scanDigits isDigit r with
      | 'n' :: r' => some r'
      | r' => some r'
    else none

/-- A number, which begins with a digit or with a point and a digit. -/
def scanNumber : List Char → Option (List Char)
  | '0' :: 'x' :: r | '0' :: 'X' :: r => scanBased (fun c => (hexValue? c).isSome) r
  | '0' :: 'o' :: r | '0' :: 'O' :: r => scanBased (fun c => '0' ≤ c ∧ c ≤ '7') r
  | '0' :: 'b' :: r | '0' :: 'B' :: r => scanBased (fun c => c == '0' || c == '1') r
  | '.' :: r => scanExponent (scanDigits Char.isDigit r)
  | r => scanFraction (scanDigits Char.isDigit r)

/-- Whether a word or a digit begins here, which may not follow a number. -/
def beginsWord : List Char → Bool
  | c :: _ => isIdentifierStart c || c.isDigit || c == '\\'
  | [] => false

/-! ## Marks -/

/-- The operators and brackets of a script, longer ones before their beginnings. A closing angle
bracket is always a mark of its own, since it may close type arguments. -/
def markTexts : List String :=
  ["...", ">", "===", "!==", "**=", "<<=", "&&=", "||=", "??=",
    "=>", "==", "!=", "**", "<<", "<=", "&&", "||", "??", "++", "--", "+=", "-=", "*=", "/=",
    "%=", "&=", "|=", "^=",
    "\x7b", "\x7d", "(", ")", "[", "]", ";", ",", "<", ".", "?", ":", "~", "@", "=", "!", "+", "-",
    "*", "/", "%", "&", "|", "^"]

/-- What follows `text` in `input`, if `input` begins with it. -/
def afterText : List Char → List Char → Option (List Char)
  | [], input => some input
  | c :: cs, d :: ds => if c == d then afterText cs ds else none
  | _ :: _, [] => none

/-- The marks with their characters. -/
def markTable : List (String × List Char) :=
  markTexts.map fun text => (text, text.toList)

/-- The mark that `input` begins with, and what follows. -/
def scanMark (input : List Char) : Option (String × List Char) :=
  match input with
  | '?' :: '.' :: r =>
    match r with
    | d :: _ => if d.isDigit then some ("?", '.' :: r) else some ("?.", r)
    | [] => some ("?.", r)
  | _ => markTable.findSome? fun (text, chars) => (afterText chars input).map fun r => (text, r)

/-- The longest operator that begins with a closing angle bracket. -/
def scanRightAngle (input : List Char) : Option (String × List Char) :=
  [">>>=", ">>>", ">>=", ">>", ">=", ">"].findSome? fun text =>
    (afterText text.toList input).map fun r => (text, r)

/-! ## The next token -/

namespace Lexeme

/-- The token at the first character of `start`. -/
def ofStart (start : List Char) : Token × List Char × Bool :=
  match start with
  | [] => (.endOfText, [], false)
  | c :: r =>
    if isIdentifierStart c || c == '\\' then
      let (name, escaped, rest) := scanWord 0 [] false start
      if name.isEmpty then (.invalid, r, true)
      else (.word (String.ofList name.reverse) escaped, rest, false)
    else if c.isDigit || (c == '.' && (r.head?.map Char.isDigit).getD false) then
      match scanNumber start with
      | none => (.invalid, r, true)
      | some rest => if beginsWord rest then (.invalid, rest, true) else (.number, rest, false)
    else if c == '"' || c == '\'' then
      match scanString c 0 [] true r with
      | none => (.invalid, [], true)
      | some (value, ok, rest) => (.string (String.ofList value.reverse), rest, !ok)
    else if c == '`' then
      match scanTemplate r with
      | none => (.invalid, [], true)
      | some (closed, rest) => (.template closed, rest, false)
    else if c == '#' then
      let (name, _, rest) := scanWord 0 [] false r
      if name.isEmpty || (name.getLast?.map Char.isDigit).getD false then (.invalid, r, true)
      else (.privateName (String.ofList name.reverse), rest, false)
    else
      match scanMark start with
      | some (text, rest) => (.mark text, rest, false)
      | none => (.invalid, r, true)

def next (input : List Char) : Lexeme :=
  let gap := skipGap .blanks false input
  let (token, rest, faulty) := ofStart gap.rest
  ⟨token, gap.rest, rest, gap.sawLineEnd, faulty || gap.unclosed⟩

/-- The next token among the children of a JSX element: text, a tag or a container. -/
def nextJsxChild (input : List Char) : Lexeme :=
  match input with
  | [] => ⟨.endOfText, [], [], false, false⟩
  | '<' :: r => ⟨.mark "<", input, r, false, false⟩
  | '{' :: r => ⟨.mark "\x7b", input, r, false, false⟩
  | _ =>
    let text := input.takeWhile fun c => c != '<' && c != '{'
    ⟨.jsxText, input, input.dropWhile fun c => c != '<' && c != '{', false,
      text.any fun c => c == '>' || c == '}'⟩

/-- The next token as the value of a JSX attribute, where a quoted text has no escapes. -/
def nextJsxValue (input : List Char) : Lexeme :=
  let gap := skipGap .blanks false input
  match gap.rest with
  | '"' :: r | '\'' :: r =>
    match scanQuoted (gap.rest.headD '"') r with
    | some rest => ⟨.string "", gap.rest, rest, gap.sawLineEnd, false⟩
    | none => ⟨.invalid, gap.rest, [], gap.sawLineEnd, true⟩
  | _ => next input

/-- The name of a JSX tag or attribute at the token of `l`: hyphens belong to it. -/
def jsxName? (l : Lexeme) : Option (String × List Char) :=
  match l.token with
  | .word _ false =>
    let isPart := fun c => isIdentifierPart c || c == '-'
    some (String.ofList (l.start.takeWhile isPart), l.start.dropWhile isPart)
  | _ => none

end Lexeme

/-- The text without a first line that names an interpreter. -/
def dropInterpreter : List Char → List Char
  | '#' :: '!' :: r => r.dropWhile fun c => !isLineEnd c
  | text => text

end CodeAtlas.Script
