import Heightfield.Surface.Grid

/-! The triangles over the vertices of a grid. Each group of four vertices has two, which meet at a
side and go along it in opposite directions, so that both are seen from the same face. -/

namespace Heightfield.Grid

section Blocks

variable {α β : Type} {f : α → List β} {size : Nat}

end Blocks

end Heightfield.Grid
