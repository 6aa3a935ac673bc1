import Heightfield.Binary64

/-! Positional decimals: the form in which numbers are read and written. -/

namespace Heightfield

/-- The number `coefficient / 10 ^ places`. -/
structure Decimal where
  coefficient : Nat
  places : Nat
deriving DecidableEq, Inhabited

namespace Decimal

/-- The decimal that digits with at most one point spell. -/
def ofChars (cs : List Char) : Decimal :=
  let whole := cs.takeWhile Char.isDigit
  let fraction := (cs.dropWhile Char.isDigit).drop 1
  ⟨Nat.ofDigitChars 10 (whole ++ fraction) 0, fraction.length⟩

/-- Drops the zeros that end the fraction. -/
def trim : Nat → Nat → Decimal
  | coefficient, 0 => ⟨coefficient, 0⟩
  | coefficient, places + 1 =>
    if coefficient % 10 = 0 then trim (coefficient / 10) places else ⟨coefficient, places + 1⟩

/-- At least one digit stands before the point, and the point only where a fraction follows. -/
def chars (d : Decimal) : List Char :=
  let digits := Nat.toDigits 10 d.coefficient
  if d.places = 0 then digits else
    let padded := List.replicate (d.places + 1 - digits.length) '0' ++ digits
    let whole := padded.length - d.places
    padded.take whole ++ '.' :: padded.drop whole

/-- The pattern of the nearest binary64 value. -/
def pattern (d : Decimal) : Nat := Binary64.nearest d.coefficient (Nat.pow 10 d.places)

def toFloat (d : Decimal) : Float := Binary64.toFloat d.pattern

end Decimal

end Heightfield
