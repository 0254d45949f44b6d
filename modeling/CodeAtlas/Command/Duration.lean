/-!
# Durations

The text of a duration: milliseconds below a second, seconds with two places below a minute, and
minutes with seconds from then on. The seconds with two places are those of the nearest double, a
tie of places going to the even digit, so a text depends on how a double represents the duration.
-/

namespace CodeAtlas

structure Duration where
  nanoseconds : Nat
deriving DecidableEq, Repr

namespace Duration

def perSecond : Nat := 1000000000

def seconds (d : Duration) : Nat := d.nanoseconds / perSecond

def milliseconds (d : Duration) : Nat := d.nanoseconds / 1000000

def twoTo (n : Nat) : Nat := Nat.pow 2 n

/-- The integer nearest to a quotient; of two that are equally near the even one. -/
def roundQuotient (numerator denominator : Nat) : Nat :=
  let q := numerator / denominator
  let twice := 2 * (numerator % denominator)
  if denominator < twice || (twice = denominator && q % 2 = 1) then q + 1 else q

/-- A number `significand / 2 ^ places`. -/
structure Binary where
  significand : Nat
  places : Nat
deriving DecidableEq, Repr

/-- The double nearest to a quotient that is less than `2 ^ 52` and not too small to be normal: its
significand has 53 bits. -/
def Binary.nearest (numerator denominator : Nat) : Binary :=
  if numerator = 0 then ⟨0, 0⟩
  else
    let guess := 52 + denominator.log2 - numerator.log2
    let tooFew := numerator * twoTo guess < denominator * twoTo 52
    let places := if tooFew then guess + 1 else guess
    ⟨roundQuotient (numerator * twoTo places) denominator, places⟩

/-- The seconds of a duration as a double: the part of a second is rounded, and so is the sum. -/
def inSeconds (d : Duration) : Binary :=
  let part := Binary.nearest (d.nanoseconds % perSecond) perSecond
  Binary.nearest (d.seconds * twoTo part.places + part.significand) (twoTo part.places)

/-- A number with two places after the point. -/
def Binary.toPlaces (b : Binary) : String :=
  let hundredths := roundQuotient (b.significand * 100) (twoTo b.places)
  let part := hundredths % 100
  Nat.repr (hundredths / 100) ++ "." ++ (if part < 10 then "0" else "") ++ Nat.repr part

/-- The text of a duration. -/
def text (d : Duration) : String :=
  if d.milliseconds < 1000 then Nat.repr d.milliseconds ++ "ms"
  else if d.milliseconds < 60000 then d.inSeconds.toPlaces ++ "s"
  else Nat.repr (d.seconds / 60) ++ "m " ++ Nat.repr (d.seconds % 60) ++ "s"

end Duration

end CodeAtlas
