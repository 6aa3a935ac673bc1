/-! Lines of a text, each with its terminator: a line feed, a carriage return with or without one,
a vertical tab, a form feed, a next-line character, or a line or paragraph separator. A final
terminator starts no new line, and an empty text has no line. -/

namespace Heightfield.Text

def endsLine (c : Char) : Bool :=
  c ∈ ['\n', '\r', '\x0b', '\x0c', '\u0085', '\u2028', '\u2029']

/-- Puts `c` in front of the first line. -/
def extendFirst (c : Char) : List (List Char) → List (List Char)
  | [] => [[c]]
  | line :: lines => (c :: line) :: lines

def lines : List Char → List (List Char)
  | [] => []
  | c :: cs =>
    if endsLine c && !(c = '\r' && cs.head? = some '\n') then [c] :: lines cs
    else extendFirst c (lines cs)

/-- Nothing is lost between the lines. -/
theorem flatten_lines (cs : List Char) : (lines cs).flatten = cs := by
  induction cs with
  | nil => rfl
  | cons c cs ih =>
    have extend : ∀ ls : List (List Char), (extendFirst c ls).flatten = c :: ls.flatten := by
      intro ls; cases ls <;> rfl
    simp only [lines]
    split
    · simp [ih]
    · rw [extend, ih]

end Heightfield.Text
