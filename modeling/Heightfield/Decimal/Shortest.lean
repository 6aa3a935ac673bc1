import Heightfield.Decimal

/-! The fewest digits that read back. For one, two, … seventeen significant digits the value lies
between two neighbours on a decimal grid; the first grid with a neighbour that reads back wins, and
of two such neighbours the nearer, an exact tie going up. Whatever the search does, the result reads
back: each candidate is read before it is taken, and the exact expansion stands behind them. -/

namespace Heightfield.Decimal

open Binary64 (units)

/-- How many decimal digits a positive number has. The binary length times `log₁₀ 2`, rounded down,
is the exponent of the leading digit or one less. -/
def digitCount (n : Nat) : Nat :=
  let least := n.log2 * 30102999 / 100000000
  if n < Nat.pow 10 (least + 1) then least + 1 else least + 2

/-- The number of decimal digits of the value's whole part once it is multiplied by `10 ^ 324`,
which makes that part positive for every pattern but zero. -/
def decade (k : Nat) : Nat := digitCount (units k * Nat.pow 10 324 / Nat.pow 2 1074)

/-- Numerator and denominator of the value over the grid step at which `digits` digits lie before
the point. -/
def overGrid (k digits : Nat) : Nat × Nat :=
  (units k * Nat.pow 10 (324 + digits), Nat.pow 2 1074 * Nat.pow 10 (decade k))

/-- Point `n` of that grid, whose step is `10 ^ decade k / 10 ^ (324 + digits)`. -/
def gridPoint (k digits n : Nat) : Decimal :=
  ⟨n * Nat.pow 10 (decade k - (324 + digits)), 324 + digits - decade k⟩

def candidate? (k digits : Nat) : Option Decimal :=
  let (num, den) := overGrid k digits
  let low := gridPoint k digits (num / den)
  let high := gridPoint k digits (num / den + 1)
  if low.pattern = k ∧ (2 * (num % den) < den ∨ high.pattern ≠ k) then some low
  else if high.pattern = k then some high
  else none

/-- All digits of the value: a fraction over `2 ^ 1074` is one over `10 ^ 1074`. -/
def exact (k : Nat) : Decimal := ⟨units k * Nat.pow 5 1074, 1074⟩

def shortest (k : Nat) : Decimal :=
  let d := ((List.range' 1 17).findSome? (candidate? k)).getD (exact k)
  trim d.coefficient d.places

end Heightfield.Decimal
