/-! The non-negative half of IEEE 754 binary64, by bit pattern. Pattern `k` below `infinity` has the
value `units k` in units of 2^-1074. Values grow with the pattern, so neighbours in value are
neighbours in number, and the even pattern is the one with the even significand. -/

namespace Heightfield.Binary64

/-- The pattern of positive infinity; the patterns above it hold no number. -/
def infinity : Nat := 2047 * Nat.pow 2 52

/-- The pattern with only the sign bit set. -/
def signBit : Nat := Nat.pow 2 63

/-- The value of a finite pattern, in units of the least positive one. -/
def units (k : Nat) : Nat :=
  if k < Nat.pow 2 52 then k
  else (Nat.pow 2 52 + k % Nat.pow 2 52) * Nat.pow 2 (k / Nat.pow 2 52 - 1)

/-- The quotient rounded to a nearest integer, a half going to the even neighbour. -/
def roundDiv (num den : Nat) : Nat :=
  let q := num / den
  let r := num % den
  if 2 * r < den ∨ (2 * r = den ∧ q % 2 = 0) then q else q + 1

/-- The pattern nearest to `num / den`, a half going to the even pattern. What rounds past the
greatest finite value is infinity. -/
def nearest (num den : Nat) : Nat :=
  let scaled := num * Nat.pow 2 1074
  let shift := (scaled / den).log2 - 52
  min (shift * Nat.pow 2 52 + roundDiv scaled (den * Nat.pow 2 shift)) infinity

def nan : Float := 0.0 / 0.0

/-- The non-negative number of a pattern. -/
def toFloat (k : Nat) : Float := Float.ofBits (UInt64.ofNat k)

/-- The pattern of a number without its sign. -/
def magnitude (v : Float) : Nat := v.toBits.toNat % signBit

/-- Zeros have signs too. -/
def isSigned (v : Float) : Bool := decide (signBit ≤ v.toBits.toNat)

end Heightfield.Binary64
