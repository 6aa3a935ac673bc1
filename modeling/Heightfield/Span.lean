import Heightfield.Text.Slice

/-! Half-open ranges of byte offsets into a source. -/

namespace Heightfield

structure Span where
  start : Nat
  stop : Nat
deriving DecidableEq, Inhabited

namespace Span

/-- From the start of one span to the end of another. -/
def through (a b : Span) : Span := ⟨a.start, b.stop⟩

/-- Both ends brought within `length`, and the end not before the start. -/
def clamp (s : Span) (length : Nat) : Span :=
  let start := min s.start length
  ⟨start, max (min s.stop length) start⟩

/-- The selected text, if both ends fall between characters. -/
def slice? (s : Span) (source : List Char) : Option (List Char) :=
  (Text.dropBytes? source s.start).bind (Text.takeBytes? · (s.stop - s.start))

theorem slice?_append (as bs cs : List Char) :
    slice? ⟨Text.byteLength as, Text.byteLength (as ++ bs)⟩ (as ++ (bs ++ cs)) = some bs := by
  simp [slice?, Text.dropBytes?_append, Text.byteLength_append, Text.takeBytes?_append]

theorem clamp_start_le_stop (s : Span) (length : Nat) :
    (s.clamp length).start ≤ (s.clamp length).stop := Nat.le_max_right _ _

theorem clamp_stop_le (s : Span) (length : Nat) : (s.clamp length).stop ≤ length := by
  simp only [clamp]; omega

/-- As messages show it. -/
def text (s : Span) : String := toString s.start ++ ".." ++ toString s.stop

end Span

end Heightfield
