import Heightfield.Suggestion
import Mathlib.Order.Bounds.Basic
import Mathlib.Order.MinMax

/-! The table of distances. Its rows follow a recursion on the ends of the two texts, and what that
recursion counts is the least number of edits, wherever in the texts they are made. -/

namespace Heightfield.Suggestion

/-- One character is inserted, deleted or replaced. -/
inductive Edit : List Char → List Char → Prop
  | insert (before : List Char) (c : Char) (after : List Char) :
      Edit (before ++ after) (before ++ c :: after)
  | delete (before : List Char) (c : Char) (after : List Char) :
      Edit (before ++ c :: after) (before ++ after)
  | replace (before : List Char) (c d : Char) (after : List Char) :
      Edit (before ++ c :: after) (before ++ d :: after)

/-- So many edits, one after another. -/
inductive Edits : Nat → List Char → List Char → Prop
  | done {as} : Edits 0 as as
  | step {n as bs cs} (first : Edit as bs) (rest : Edits n bs cs) : Edits (n + 1) as cs

theorem Edit.cons {as bs : List Char} (h : Edit as bs) (c : Char) : Edit (c :: as) (c :: bs) := by
  cases h with
  | insert before d after => exact .insert (c :: before) d after
  | delete before d after => exact .delete (c :: before) d after
  | replace before d e after => exact .replace (c :: before) d e after

theorem Edit.reverse {as bs : List Char} (h : Edit as bs) : Edit as.reverse bs.reverse := by
  cases h with
  | insert before c after => simpa using Edit.insert after.reverse c before.reverse
  | delete before c after => simpa using Edit.delete after.reverse c before.reverse
  | replace before c d after => simpa using Edit.replace after.reverse c d before.reverse

namespace Edits

variable {n : Nat} {as bs : List Char}

theorem cons (h : Edits n as bs) (c : Char) : Edits n (c :: as) (c :: bs) := by
  induction h with
  | done => exact .done
  | step first _ ih => exact .step (first.cons c) ih

theorem insert (h : Edits n as bs) (b : Char) : Edits (n + 1) as (b :: bs) :=
  .step (.insert [] b as) (h.cons b)

theorem delete (h : Edits n as bs) (a : Char) : Edits (n + 1) (a :: as) bs :=
  .step (.delete [] a as) h

theorem replace (h : Edits n as bs) (a b : Char) : Edits (n + 1) (a :: as) (b :: bs) :=
  .step (.replace [] a b as) (h.cons b)

theorem reverse (h : Edits n as bs) : Edits n as.reverse bs.reverse := by
  induction h with
  | done => exact .done
  | step first _ ih => exact .step first.reverse ih

theorem reverse_iff : Edits n as.reverse bs.reverse ↔ Edits n as bs := by
  refine ⟨fun h => ?_, reverse⟩
  have hback := h.reverse
  rwa [List.reverse_reverse, List.reverse_reverse] at hback

end Edits

/-- The distance by recursion on the heads. Equal heads are kept, whatever else there is. -/
def headDistance : List Char → List Char → Nat
  | [], bs => bs.length
  | a :: as, [] => (a :: as).length
  | a :: as, b :: bs =>
    if a = b then headDistance as bs
    else 1 + min (min (headDistance as bs) (headDistance as (b :: bs))) (headDistance (a :: as) bs)

theorem headDistance_nil_left (bs : List Char) : headDistance [] bs = bs.length := by
  rw [headDistance]

theorem headDistance_nil_right (as : List Char) : headDistance as [] = as.length := by
  cases as <;> rw [headDistance]

theorem headDistance_same (a : Char) (as bs : List Char) :
    headDistance (a :: as) (a :: bs) = headDistance as bs := by
  rw [headDistance, if_pos rfl]

theorem headDistance_ne {a b : Char} (h : a ≠ b) (as bs : List Char) :
    headDistance (a :: as) (b :: bs) = 1 + min (min (headDistance as bs)
      (headDistance as (b :: bs))) (headDistance (a :: as) bs) := by
  rw [headDistance, if_neg h]

theorem edits_headDistance (as bs : List Char) : Edits (headDistance as bs) as bs := by
  fun_induction headDistance as bs with
  | case1 bs =>
    induction bs with
    | nil => exact .done
    | cons b bs ih => exact ih.insert b
  | case2 a as =>
    generalize a :: as = cs
    induction cs with
    | nil => exact .done
    | cons c cs ih => exact ih.delete c
  | case3 as b bs ih => exact ih.cons b
  | case4 a as b bs _ ih₁ ih₂ ih₃ =>
    rw [Nat.add_comm]
    rcases min_choice (min (headDistance as bs) (headDistance as (b :: bs)))
      (headDistance (a :: as) bs) with h | h
    · rw [h]
      rcases min_choice (headDistance as bs) (headDistance as (b :: bs)) with h' | h'
      · rw [h']
        exact ih₁.replace a b
      · rw [h']
        exact ih₂.delete a
    · rw [h]
      exact ih₃.insert b

/-- A further character at the head of either text makes a difference of at most one. -/
structure Near (as bs : List Char) : Prop where
  left : ∀ a, headDistance (a :: as) bs ≤ headDistance as bs + 1 ∧
    headDistance as bs ≤ headDistance (a :: as) bs + 1
  right : ∀ b, headDistance as (b :: bs) ≤ headDistance as bs + 1 ∧
    headDistance as bs ≤ headDistance as (b :: bs) + 1

namespace Near

variable {as bs : List Char}

theorem left_cons (h : Near as bs) (b a : Char) :
    headDistance (a :: as) (b :: bs) ≤ headDistance as (b :: bs) + 1 ∧
      headDistance as (b :: bs) ≤ headDistance (a :: as) (b :: bs) + 1 := by
  have ha := h.left a
  have hb := h.right b
  by_cases hab : a = b
  · subst hab
    rw [headDistance_same]
    exact ⟨hb.2, hb.1⟩
  · rw [headDistance_ne hab]
    omega

theorem right_cons (h : Near as bs) (a b : Char) :
    headDistance (a :: as) (b :: bs) ≤ headDistance (a :: as) bs + 1 ∧
      headDistance (a :: as) bs ≤ headDistance (a :: as) (b :: bs) + 1 := by
  have ha := h.left a
  have hb := h.right b
  by_cases hab : a = b
  · subst hab
    rw [headDistance_same]
    exact ⟨ha.2, ha.1⟩
  · rw [headDistance_ne hab]
    omega

theorem all (as bs : List Char) : Near as bs := by
  have hleft : ∀ a (as : List Char), headDistance (a :: as) [] ≤ headDistance as [] + 1 ∧
      headDistance as [] ≤ headDistance (a :: as) [] + 1 := by
    intro a as
    rw [headDistance_nil_right, headDistance_nil_right, List.length_cons]
    omega
  have hright : ∀ b (bs : List Char), headDistance [] (b :: bs) ≤ headDistance [] bs + 1 ∧
      headDistance [] bs ≤ headDistance [] (b :: bs) + 1 := by
    intro b bs
    rw [headDistance_nil_left, headDistance_nil_left, List.length_cons]
    omega
  induction as generalizing bs with
  | nil =>
    induction bs with
    | nil => exact ⟨fun a => hleft a [], fun b => hright b []⟩
    | cons b bs ih => exact ⟨ih.left_cons b, fun b' => hright b' (b :: bs)⟩
  | cons a as ih =>
    induction bs with
    | nil => exact ⟨fun a' => hleft a' (a :: as), (ih []).right_cons a⟩
    | cons b bs ih' => exact ⟨ih'.left_cons b, (ih (b :: bs)).right_cons a⟩

end Near

/-- An edit behind a common beginning changes no distance by more than one. -/
theorem headDistance_cons_le {as bs : List Char}
    (h : ∀ cs, headDistance as cs ≤ headDistance bs cs + 1) (a : Char) (cs : List Char) :
    headDistance (a :: as) cs ≤ headDistance (a :: bs) cs + 1 := by
  induction cs with
  | nil =>
    have hnil := h []
    rw [headDistance_nil_right, headDistance_nil_right] at hnil ⊢
    rw [List.length_cons, List.length_cons]
    omega
  | cons c cs ih =>
    have hcs := h cs
    have hcons := h (c :: cs)
    by_cases hac : a = c
    · subst hac
      rw [headDistance_same, headDistance_same]
      exact hcs
    · rw [headDistance_ne hac, headDistance_ne hac]
      omega

theorem headDistance_replace_le (c d : Char) (as cs : List Char) :
    headDistance (c :: as) cs ≤ headDistance (d :: as) cs + 1 := by
  induction cs with
  | nil =>
    rw [headDistance_nil_right, headDistance_nil_right]
    exact Nat.le_succ _
  | cons e cs ih =>
    have hnear := Near.all as cs
    have hd := hnear.left d
    have he := hnear.right e
    by_cases hce : c = e
    · subst hce
      rw [headDistance_same]
      by_cases hde : d = c
      · subst hde
        rw [headDistance_same]
        exact Nat.le_succ _
      · rw [headDistance_ne hde]
        omega
    · rw [headDistance_ne hce]
      by_cases hde : d = e
      · subst hde
        rw [headDistance_same]
        omega
      · rw [headDistance_ne hde]
        omega

theorem Edit.headDistance_le {as bs : List Char} (h : Edit as bs) (cs : List Char) :
    headDistance as cs ≤ headDistance bs cs + 1 := by
  have behind : ∀ (before : List Char) {as bs : List Char},
      (∀ cs, headDistance as cs ≤ headDistance bs cs + 1) →
        ∀ cs, headDistance (before ++ as) cs ≤ headDistance (before ++ bs) cs + 1 := by
    intro before as bs h
    induction before with
    | nil => exact h
    | cons c before ih => exact headDistance_cons_le ih c
  cases h with
  | insert before c after => exact behind before (fun cs => ((Near.all after cs).left c).2) cs
  | delete before c after => exact behind before (fun cs => ((Near.all after cs).left c).1) cs
  | replace before c d after => exact behind before (headDistance_replace_le c d after) cs

theorem headDistance_self (as : List Char) : headDistance as as = 0 := by
  induction as with
  | nil => rw [headDistance_nil_left, List.length_nil]
  | cons a as ih => rw [headDistance_same, ih]

theorem Edits.headDistance_le {n : Nat} {as bs : List Char} (h : Edits n as bs) :
    headDistance as bs ≤ n := by
  induction h with
  | done => rw [headDistance_self]
  | step first _ ih => exact Nat.le_trans (first.headDistance_le _) (Nat.succ_le_succ ih)

/-! The row for `as`, read backwards: its entry for a start of `bs` counts from the start, read
backwards, so that the next character stands at the head. -/

/-- The distances of `as` to `done` and to what it grows to over `bs`. -/
def rowFrom (as done : List Char) : List Char → List Nat
  | [] => [headDistance as done]
  | b :: bs => headDistance as done :: rowFrom as (b :: done) bs

/-- The row without its first entry. -/
def rowBehind (as done : List Char) : List Char → List Nat
  | [] => []
  | b :: bs => rowFrom as (b :: done) bs

theorem rowFrom_eq (as done bs : List Char) :
    rowFrom as done bs = headDistance as done :: rowBehind as done bs := by
  cases bs <;> rfl

theorem nextRow_rowBehind (a : Char) (as done bs : List Char) :
    nextRow a (headDistance as done) (headDistance (a :: as) done) bs (rowBehind as done bs) =
      rowBehind (a :: as) done bs := by
  induction bs generalizing done with
  | nil => rfl
  | cons b bs ih =>
    rw [rowBehind, rowBehind, rowFrom_eq, rowFrom_eq, nextRow, ← headDistance, ih]

theorem lastRow_rowFrom (as done bs : List Char) :
    lastRow bs as (rowFrom done [] bs) = rowFrom (as.reverse ++ done) [] bs := by
  induction as generalizing done with
  | nil => cases bs <;> rfl
  | cons a as ih =>
    have hfirst : headDistance done [] + 1 = headDistance (a :: done) [] := by
      rw [headDistance_nil_right, headDistance_nil_right, List.length_cons]
    rw [rowFrom_eq, lastRow, hfirst, nextRow_rowBehind, ← rowFrom_eq, ih, List.reverse_cons,
      List.append_assoc, List.singleton_append]

theorem rowFrom_nil (done bs : List Char) :
    rowFrom [] done bs = List.range' done.length (bs.length + 1) := by
  induction bs generalizing done with
  | nil => rw [rowFrom, headDistance_nil_left]; rfl
  | cons b bs ih =>
    rw [rowFrom, ih, headDistance_nil_left, List.length_cons, List.length_cons,
      List.range'_succ (n := bs.length + 1)]

theorem getLastD_rowFrom (as done bs : List Char) :
    (rowFrom as done bs).getLastD 0 = headDistance as (bs.reverse ++ done) := by
  induction bs generalizing done with
  | nil => rfl
  | cons b bs ih =>
    rw [rowFrom, List.getLastD_cons, List.reverse_cons, List.append_assoc, List.singleton_append,
      ← ih (b :: done), rowFrom_eq, List.getLastD_cons, List.getLastD_cons]

theorem distance_eq (as bs : List Char) : distance as bs = headDistance as.reverse bs.reverse := by
  rw [distance, List.range_eq_range', ← List.length_nil (α := Char), ← rowFrom_nil, lastRow_rowFrom,
    List.append_nil]
  have hlast := getLastD_rowFrom as.reverse [] bs
  rwa [List.append_nil] at hlast

/-- The table finds the least number of edits. -/
theorem distance_isLeast (as bs : List Char) : IsLeast {n | Edits n as bs} (distance as bs) := by
  rw [distance_eq]
  constructor
  · exact Edits.reverse_iff.1 (edits_headDistance as.reverse bs.reverse)
  · intro n hn
    exact (Edits.reverse hn).headDistance_le

/-- An exchange of two characters takes two edits. -/
example : distance "sni".toList "sin".toList = 2 := by decide +kernel

end Heightfield.Suggestion
