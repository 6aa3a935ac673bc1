/-! Text addressed by UTF-8 byte offsets. An offset counts the bytes before it, so the offsets of a
text are the partial sums of its characters' sizes; a cut inside a character selects nothing. -/

namespace Heightfield.Text

def byteLength : List Char → Nat
  | [] => 0
  | c :: cs => c.utf8Size + byteLength cs

/-- The text from byte `n` on, if `n` is the offset of a character or the end. -/
def dropBytes? : List Char → Nat → Option (List Char)
  | cs, 0 => some cs
  | [], _ + 1 => none
  | c :: cs, n + 1 => if c.utf8Size ≤ n + 1 then dropBytes? cs (n + 1 - c.utf8Size) else none

/-- The text before byte `n`, if `n` is the offset of a character or the end. -/
def takeBytes? : List Char → Nat → Option (List Char)
  | _, 0 => some []
  | [], _ + 1 => none
  | c :: cs, n + 1 =>
    if c.utf8Size ≤ n + 1 then (takeBytes? cs (n + 1 - c.utf8Size)).map (c :: ·) else none

theorem byteLength_append (as bs : List Char) :
    byteLength (as ++ bs) = byteLength as + byteLength bs := by
  induction as with
  | nil => simp [byteLength]
  | cons a as ih => simp [byteLength, ih, Nat.add_assoc]

theorem dropBytes?_append (as bs : List Char) :
    dropBytes? (as ++ bs) (byteLength as) = some bs := by
  induction as with
  | nil => cases bs <;> rfl
  | cons a as ih =>
    obtain ⟨n, hn⟩ := Nat.exists_eq_add_of_lt a.utf8Size_pos
    have h : byteLength (a :: as) = n + byteLength as + 1 := by simp only [byteLength]; omega
    rw [h, List.cons_append, dropBytes?, if_pos (by omega)]
    rw [show n + byteLength as + 1 - a.utf8Size = byteLength as by omega, ih]

theorem takeBytes?_append (as bs : List Char) :
    takeBytes? (as ++ bs) (byteLength as) = some as := by
  induction as with
  | nil => cases bs <;> rfl
  | cons a as ih =>
    obtain ⟨n, hn⟩ := Nat.exists_eq_add_of_lt a.utf8Size_pos
    have h : byteLength (a :: as) = n + byteLength as + 1 := by simp only [byteLength]; omega
    rw [h, List.cons_append, takeBytes?, if_pos (by omega)]
    rw [show n + byteLength as + 1 - a.utf8Size = byteLength as by omega, ih]
    rfl

end Heightfield.Text
