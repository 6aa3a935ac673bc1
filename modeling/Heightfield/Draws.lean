import Heightfield.Code

/-! Numbers for `rand`, spread evenly over [0, 1). Each evaluation has a stream of its own, and no
two draws of a stream are equal before the stream has run through `2 ^ 53` of them. -/

namespace Heightfield.Draws

/-- Multiples of an odd step visit every residue of a power of two once. -/
def step : Nat := 0x13c6ef372fe94f

/-- How far apart the streams of two successive evaluations begin. -/
def stride : Nat := 0x1234567

/-- Draw `n` of an evaluation, by the evaluation's number. -/
def stream (evaluation : Nat) : Draws := fun n =>
  let residue := (evaluation * stride + n + 1) * step % Nat.pow 2 53
  (UInt64.ofNat residue).toFloat / 9007199254740992.0

end Heightfield.Draws
