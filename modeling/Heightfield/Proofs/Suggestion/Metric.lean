import Heightfield.Proofs.Suggestion.Distance

/-! The table measures a distance. That is read off the edits it counts: they can be undone one by
one and run one after another, and without any the text is the same. -/

namespace Heightfield.Suggestion

/-- What is inserted can be deleted, and the other way round. -/
theorem Edit.symm {as bs : List Char} (h : Edit as bs) : Edit bs as := by
  cases h with
  | insert before c after => exact .delete before c after
  | delete before c after => exact .insert before c after
  | replace before c d after => exact .replace before d c after

namespace Edits

variable {m n : Nat} {as bs cs : List Char}

theorem zero_iff : Edits 0 as bs ↔ as = bs := by
  constructor
  · intro h
    cases h with
    | done => rfl
  · rintro rfl
    exact .done

theorem trans (h : Edits m as bs) (h' : Edits n bs cs) : Edits (m + n) as cs := by
  induction h with
  | done =>
    rw [Nat.zero_add]
    exact h'
  | step first _ ih =>
    rw [Nat.add_right_comm]
    exact .step first (ih h')

theorem symm (h : Edits n as bs) : Edits n bs as := by
  induction h with
  | done => exact .done
  | step first _ ih => exact ih.trans (.step first.symm .done)

end Edits

theorem edits_distance (as bs : List Char) : Edits (distance as bs) as bs :=
  (distance_isLeast as bs).1

theorem Edits.distance_le {n : Nat} {as bs : List Char} (h : Edits n as bs) :
    distance as bs ≤ n :=
  (distance_isLeast as bs).2 h

theorem distance_symm_le (as bs : List Char) : distance as bs ≤ distance bs as :=
  (edits_distance bs as).symm.distance_le

theorem distance_eq_zero_iff (as bs : List Char) : distance as bs = 0 ↔ as = bs := by
  rw [← Edits.zero_iff]
  constructor
  · intro h
    have hedits := edits_distance as bs
    rwa [h] at hedits
  · intro h
    exact Nat.le_zero.1 h.distance_le

theorem distance_triangle (as bs cs : List Char) :
    distance as cs ≤ distance as bs + distance bs cs :=
  ((edits_distance as bs).trans (edits_distance bs cs)).distance_le

/-- What the table finds for two texts is their Levenshtein distance, the least number of characters
inserted, deleted or replaced that turns the one into the other, and the laws of a distance hold. -/
theorem distance_levenshtein (a b : String) :
    IsLeast {n | Edits n a.toList b.toList} (distance a.toList b.toList) ∧
    distance a.toList b.toList = distance b.toList a.toList ∧
    (distance a.toList b.toList = 0 ↔ a = b) ∧
    ∀ c : String, distance a.toList c.toList ≤
      distance a.toList b.toList + distance b.toList c.toList := by
  refine ⟨distance_isLeast _ _, ?_, ?_, fun c => distance_triangle _ _ _⟩
  · exact Nat.le_antisymm (distance_symm_le _ _) (distance_symm_le _ _)
  · rw [distance_eq_zero_iff, String.toList_inj]

end Heightfield.Suggestion
