import CodeAtlas.Json.Reader
import CodeAtlas.Text.Blank

/-!
# Relaxed JSON

A relaxed document may hold comments, and a comma may stand before a closing bracket. Two passes
make it strict: `blankComments` puts blanks in place of comments, and `dropTrailingCommas` leaves
out the commas that a closing bracket follows. Both leave strings alone. The first pass does as the
`json_comments` package does.
-/

namespace CodeAtlas.Json

open CodeAtlas.Text

/-! ## Comments -/

/-- Where a pass over a document with comments stands. -/
inductive Region where
  | code
  | string
  /-- In a string, after a backslash. -/
  | escape
  /-- After a slash, which can only begin a comment. -/
  | slash
  | lineComment
  | blockComment
  /-- In a block comment, after an asterisk. -/
  | asterisk
deriving DecidableEq, Repr

/-- The document with blanks in place of its comments; nothing if a slash begins no comment, or if
a string or a block comment is not closed. -/
def blankComments : Region → List Char → Option (List Char)
  | .code, [] | .lineComment, [] => some []
  | _, [] => none
  | .code, c :: r =>
    if c = '/' then (blankComments .slash r).map (' ' :: ·)
    else (blankComments (if c = '"' then .string else .code) r).map (c :: ·)
  | .string, c :: r =>
    let next := if c = '"' then .code else if c = '\\' then .escape else .string
    (blankComments next r).map (c :: ·)
  | .escape, c :: r => (blankComments .string r).map (c :: ·)
  | .slash, c :: r =>
    if c = '*' then (blankComments .blockComment r).map (' ' :: ·)
    else if c = '/' then (blankComments .lineComment r).map (' ' :: ·)
    else none
  | .lineComment, c :: r =>
    if c = '\n' then (blankComments .code r).map (c :: ·)
    else (blankComments .lineComment r).map (' ' :: ·)
  | .blockComment, c :: r =>
    (blankComments (if c = '*' then .asterisk else .blockComment) r).map (' ' :: ·)
  | .asterisk, c :: r =>
    let next := if c = '/' then .code else if c = '*' then .asterisk else .blockComment
    (blankComments next r).map (' ' :: ·)

/-! ## Trailing commas -/

/-- Whether a closing bracket is the first character of a text that is not blank. -/
def closesNext (text : List Char) : Bool :=
  match text.dropWhile isBlank with
  | c :: _ => c = '}' || c = ']'
  | [] => false

mutual

/-- The document without the commas that a closing bracket follows. -/
def dropTrailingCommas : List Char → List Char
  | [] => []
  | c :: r =>
    if c = ',' then
      if closesNext r then dropTrailingCommas r else c :: dropTrailingCommas r
    else if c = '"' then c :: dropTrailingCommasInString r
    else c :: dropTrailingCommas r

/-- `dropTrailingCommas` of a text that begins inside a string. -/
def dropTrailingCommasInString : List Char → List Char
  | [] => []
  | '\\' :: c :: r => '\\' :: c :: dropTrailingCommasInString r
  | c :: r => if c = '"' then c :: dropTrailingCommas r else c :: dropTrailingCommasInString r

end

def readRelaxed (text : String) : Option Value := do
  let code ← blankComments .code text.toList
  read (String.ofList (dropTrailingCommas code))

end CodeAtlas.Json
