/-!
# Texts from bytes

A system hands out names as rows of bytes, which need not be UTF-8. The text of such a row has the
characters that the bytes spell, and the replacement character where they spell none. One
replacement stands for the longest part that could have begun a character, or else for one byte.
-/

namespace CodeAtlas.Text

def replacement : Char := Char.ofNat 0xFFFD

def bytesOf (text : String) : List UInt8 := text.toByteArray.data.toList

/-- The character that some bytes begin with. -/
def firstChar? (bytes : List UInt8) : Option Char := bytes.toByteArray.utf8DecodeChar? 0

/-- Whether a character of more than two bytes can begin with these two. -/
def canBegin (a b : UInt8) : Bool :=
  let (low, high) :=
    if a = 0xE0 then (0xA0, 0xBF) else if a = 0xED then (0x80, 0x9F)
    else if a = 0xF0 then (0x90, 0xBF) else if a = 0xF4 then (0x80, 0x8F) else (0x80, 0xBF)
  0xE0 ≤ a && a ≤ 0xF4 && low ≤ b && b ≤ high

/-- How many bytes one replacement stands for where no character begins. -/
def brokenLength : List UInt8 → Nat
  | a :: b :: rest =>
    if canBegin a b then
      if 0xF0 ≤ a && rest.head?.any fun c => 0x80 ≤ c && c ≤ 0xBF then 3 else 2
    else 1
  | _ => 1

/-- The characters of some bytes after the first `skipped` of them. -/
def decodeFrom : (skipped : Nat) → List UInt8 → List Char
  | _, [] => []
  | skipped + 1, _ :: rest => decodeFrom skipped rest
  | 0, b :: rest =>
    match firstChar? (b :: rest) with
    | some c => c :: decodeFrom (c.utf8Size - 1) rest
    | none => replacement :: decodeFrom (brokenLength (b :: rest) - 1) rest

def ofBytes (bytes : List UInt8) : String := String.ofList (decodeFrom 0 bytes)

end CodeAtlas.Text
