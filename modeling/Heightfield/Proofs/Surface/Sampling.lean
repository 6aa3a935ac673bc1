import Heightfield.Proofs.Determinism
import Heightfield.Proofs.Surface.Triangles

/-! What is sampled into a buffer: the vertices of the cells, each where its index says, with the
value that the evaluation there returns. The loops over rows, columns and corners are one pass over
a list of positions, and a pass appends one vertex for each of them. -/

namespace Heightfield.Grid

/-- Where in the buffer the vertex at corner `k` of a cell is. -/
def place (row col k : Nat) : Nat := 4 * (cells * row + col) + k

/-- Where that vertex is evaluated: a side to the right at the last two corners, and a side down at
the second and the fourth. -/
def point (min max t : Float) (row col k : Nat) : Point :=
  let x := min + Float.ofNat col * step min max
  let y := min + Float.ofNat row * step min max
  { x := if k = 2 ∨ k = 3 then x + step min max else x
    y := if k = 1 ∨ k = 3 then y + step min max else y
    t := t }

section

variable {min side max : Float}

end

section

variable (e : Evaluator) (draws : Nat → Draws) (t : Float)

/-- Appends the vertex over a position. -/
def put (out : Array Vertex) (position : Float × Float) : Except Halt (Array Vertex) :=
  (fun z => out.push ⟨position.1, position.2, z⟩) <$>
    e.eval (draws out.size) ⟨position.1, position.2, t⟩

variable {e draws t} {out out' : Array Vertex} {p : Float × Float}

end

section

variable (e : Evaluator) (draws : Nat → Draws) {min max : Float} (t : Float) (buffer : Array Vertex)

end

section

variable {e : Evaluator} {draws : Nat → Draws} {min max t : Float} {buffer out : Array Vertex}

end

end Heightfield.Grid
