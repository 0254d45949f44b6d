import CodeAtlas.Json.Reader

/-!
# The magnitude of a number

Numbers may be too large for what is to hold them: a count has 64 bits, and any other number is a
double. `count?` reads a count from its digits, and `isFinite` tells whether the number that a
literal names still rounds to a finite double. Both are decided on integers.
-/

namespace CodeAtlas.Json

/-- The number that some digits spell. -/
def digitsValue (digits : List Char) : Nat :=
  digits.foldl (fun n c => 10 * n + (c.toNat - 48)) 0

/-- What a count of 64 bits is less than. -/
def countLimit : Nat := Nat.pow 2 64

/-- The number that digits spell, of which there is at least one, if it is a count of 64 bits. -/
def count? (digits : List Char) : Option Nat :=
  let n := digitsValue digits
  if !digits.isEmpty && digits.all Char.isDigit && n < countLimit then some n else none

/-- A number `mantissa * 10 ^ (up - down)`. -/
structure Decimal where
  mantissa : Nat
  up : Nat
  down : Nat
deriving DecidableEq, Repr

/-- The exponent in the part of a literal after its digits. -/
def exponentOf : List Char → Nat × Nat
  | _ :: '-' :: digits => (0, digitsValue digits)
  | _ :: '+' :: digits => (digitsValue digits, 0)
  | _ :: digits => (digitsValue digits, 0)
  | [] => (0, 0)

/-- The magnitude of the number that a literal names. -/
def Decimal.ofLiteral (literal : String) : Decimal :=
  let text := literal.toList.dropWhile (· == '-')
  let whole := text.takeWhile Char.isDigit
  let rest := text.dropWhile Char.isDigit
  let (fraction, rest) := match rest with
    | '.' :: r => (r.takeWhile Char.isDigit, r.dropWhile Char.isDigit)
    | r => ([], r)
  let (up, down) := exponentOf rest
  ⟨digitsValue (whole ++ fraction), up, down + fraction.length⟩

/-- Half a unit above the largest finite double: what is not below it rounds to infinity. -/
def doubleLimit : Nat := Nat.pow 2 1024 - Nat.pow 2 970

/-- Whether a number rounds to a finite double. A number of 311 digits or more before the point
does not, and one of less than 300 does, so only numbers between are computed. -/
def Decimal.isFinite (d : Decimal) : Bool :=
  let digits := (Nat.repr d.mantissa).length
  if d.mantissa = 0 || digits + d.up < 300 + d.down then true
  else if 310 + d.down < digits + d.up then false
  else d.mantissa * Nat.pow 10 (d.up - d.down) < doubleLimit * Nat.pow 10 (d.down - d.up)

/-- Whether the number that a literal names rounds to a finite double. -/
def isFinite (literal : String) : Bool := (Decimal.ofLiteral literal).isFinite

end CodeAtlas.Json
