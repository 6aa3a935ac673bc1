import Heightfield.Decimal.Shortest

/-! The written forms of floating-point numbers: `plain` for listings and canonical text, `pointed`
for structured dumps, `scientific` for values compared to a fixed number of digits. -/

namespace Heightfield.Notation

/-- Writes the sign and hands a finite magnitude to `body`. No NaN shows its sign. -/
def written (body : Nat → List Char) (v : Float) : String :=
  let k := Binary64.magnitude v
  if Binary64.infinity < k then "NaN" else
    let digits := if k = Binary64.infinity then "inf".toList else body k
    String.ofList (if Binary64.isSigned v then '-' :: digits else digits)

/-- The shortest digits that read back, always positional. -/
def plain : Float → String := written fun k => (Decimal.shortest k).chars

/-- One digit before the point, the others after it, and the exponent without plus or padding. -/
def withExponent (digits : List Char) (exponent : Int) : List Char :=
  let mantissa := match digits with
    | [] => []
    | [c] => [c]
    | c :: rest => c :: '.' :: rest
  mantissa ++ 'e' :: (toString exponent).toList

/-- The shortest digits with a point or an exponent: positional from `10 ^ -4` up to `10 ^ 16`. -/
def pointed : Float → String := written fun k =>
  let d := Decimal.shortest k
  let digits := Nat.toDigits 10 d.coefficient
  let exponent : Int := (digits.length : Int) - 1 - d.places
  if k ≠ 0 ∧ (exponent < -4 ∨ 16 ≤ exponent) then
    withExponent (digits.reverse.dropWhile (· == '0')).reverse exponent
  else if d.places = 0 then digits ++ ['.', '0']
  else d.chars

/-- Exactly `digits` significant digits of the exact value, a half going to the even digit. -/
def scientific (digits : Nat) : Float → String := written fun k =>
  if k = 0 then withExponent (List.replicate digits '0') 0 else
    let (num, den) := Decimal.overGrid k digits
    let n := Binary64.roundDiv num den
    let exponent : Int := (Decimal.decade k : Int) - 325
    if n = Nat.pow 10 digits then withExponent (Nat.toDigits 10 (n / 10)) (exponent + 1)
    else withExponent (Nat.toDigits 10 n) exponent

end Heightfield.Notation
