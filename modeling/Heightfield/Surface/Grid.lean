import Heightfield.Draws
import Heightfield.Evaluator

/-! A field sampled over a square grid, and the triangles that cover it. Every cell has four
vertices of its own: top left, bottom left, top right, bottom right. -/

namespace Heightfield.Grid

/-- Cells along each side. -/
def cells : Nat := 50

structure Vertex where
  x : Float
  y : Float
  z : Float
deriving DecidableEq, Inhabited

/-- The side of a cell. -/
def step (min max : Float) : Float := (max - min) / Float.ofNat cells

/-- Where the vertices of a cell stand. -/
def corners (min step : Float) (row col : Nat) : List (Float × Float) :=
  let x := min + Float.ofNat col * step
  let y := min + Float.ofNat row * step
  [(x, y), (x, y + step), (x + step, y), (x + step, y + step)]

/-- Samples into a buffer, cell by cell and row by row. What the buffer held is dropped first, and an
empty range leaves it empty. The evaluation at place `i` of the buffer draws the numbers `draws i`. -/
def fill (e : Evaluator) (draws : Nat → Draws) (min max t : Float) (buffer : Array Vertex) :
    Except Halt (Array Vertex) := do
  let mut out := buffer.shrink 0
  if min < max then
    let side := step min max
    for row in List.range cells do
      for col in List.range cells do
        for (x, y) in corners min side row col do
          let z ← e.eval (draws out.size) ⟨x, y, t⟩
          out := out.push ⟨x, y, z⟩
  return out

/-- The vertices at time `t`. Each is an evaluation with random numbers of its own. -/
def sample (e : Evaluator) (min max t : Float) : Except Halt (List Vertex) :=
  (fill e Draws.stream min max t #[]).map Array.toList

/-- The triangles of the vertices below `count`, two for every four, by index. -/
def triangles (count : Nat) : List (Nat × Nat × Nat) :=
  (List.range (count / 4)).flatMap fun cell =>
    let base := cell * 4
    [(base, base + 1, base + 2), (base + 2, base + 1, base + 3)]

end Heightfield.Grid
