import Heightfield.Proofs.Suggestion.Distance
import Mathlib.Data.List.Induction
import Mathlib.Order.Lattice.Nat

/-! Which candidate is suggested: the first of the nearest. -/

namespace Heightfield.Suggestion

variable {name : String} {candidates : List String}

/-- The Levenshtein distance: the least number of characters inserted, deleted or replaced that
turns one name into the other. -/
noncomputable def editDistance (a b : String) : Nat := sInf {n | Edits n a.toList b.toList}

theorem distance_toList (a b : String) : distance a.toList b.toList = editDistance a b :=
  (distance_isLeast a.toList b.toList).csInf_eq.symm

/-- The suggestion for a name: the first candidate of least distance, or none if not one candidate
is close enough. -/
inductive Nearest (name : String) (candidates : List String) : Option String → Prop
  | found {before s after} (split : candidates = before ++ s :: after)
      (close : editDistance name s ≤ max 1 (name.length / 3))
      (farther : ∀ r ∈ before, editDistance name s < editDistance name r)
      (noNearer : ∀ r ∈ after, editDistance name s ≤ editDistance name r) :
      Nearest name candidates (some s)
  | none (far : ∀ r ∈ candidates, max 1 (name.length / 3) < editDistance name r) :
      Nearest name candidates none

namespace Nearest

theorem mem {s : String} (h : Nearest name candidates (some s)) : s ∈ candidates := by
  cases h with
  | found split =>
    rw [split]
    exact List.mem_append_right _ List.mem_cons_self

/-- A further candidate that is too far. -/
theorem skip {r : Option String} {c : String} (h : Nearest name candidates r)
    (hc : max 1 (name.length / 3) < editDistance name c) : Nearest name (candidates ++ [c]) r := by
  cases h with
  | @found before s after split close farther noNearer =>
    have split' : candidates ++ [c] = before ++ s :: (after ++ [c]) := by simp [split]
    refine .found split' close farther ?_
    refine List.forall_mem_append.2 ⟨noNearer, List.forall_mem_singleton.2 ?_⟩
    exact Nat.le_of_lt (Nat.lt_of_le_of_lt close hc)
  | none far => exact .none (List.forall_mem_append.2 ⟨far, List.forall_mem_singleton.2 hc⟩)

/-- A further candidate that is no nearer than the one found. -/
theorem keep {s c : String} (h : Nearest name candidates (some s))
    (hc : editDistance name s ≤ editDistance name c) :
    Nearest name (candidates ++ [c]) (some s) := by
  cases h with
  | @found before s after split close farther noNearer =>
    have split' : candidates ++ [c] = before ++ s :: (after ++ [c]) := by simp [split]
    refine .found split' close farther ?_
    exact List.forall_mem_append.2 ⟨noNearer, List.forall_mem_singleton.2 hc⟩

/-- A further candidate that is close enough, and nearer than all before it. -/
theorem take {c : String} (hc : editDistance name c ≤ max 1 (name.length / 3))
    (h : ∀ r ∈ candidates, editDistance name c < editDistance name r) :
    Nearest name (candidates ++ [c]) (some c) := .found rfl hc h nofun

theorem le {s : String} (h : Nearest name candidates (some s)) :
    ∀ r ∈ candidates, editDistance name s ≤ editDistance name r := by
  cases h with
  | found split close farther noNearer =>
    rw [split]
    refine List.forall_mem_append.2 ⟨fun r hr => Nat.le_of_lt (farther r hr), ?_⟩
    exact List.forall_mem_cons.2 ⟨Nat.le_refl _, noNearer⟩

end Nearest

/-- A candidate that is close enough, with its distance. -/
noncomputable def close? (name candidate : String) : Option (Nat × String) :=
  if editDistance name candidate ≤ limit name then some (editDistance name candidate, candidate)
  else none

/-- The one so far, unless the next is nearer. -/
def nearer : Option (Nat × String) → Nat × String → Option (Nat × String)
  | none, next => some next
  | some best, next => if next.1 < best.1 then some next else some best

theorem similar?_eq (hname : name ∉ candidates) :
    similar? name candidates =
      ((candidates.filterMap (close? name)).foldl nearer none).map (·.2) := by
  have hfilter : candidates.filter (· ≠ name) = candidates := by
    refine List.filter_eq_self.2 fun c hc => decide_eq_true ?_
    rintro rfl
    exact hname hc
  unfold similar?
  simp only [hfilter, distance_toList]
  refine congrArg (Option.map _) (congrArg (List.foldl · none _) ?_)
  funext best next
  cases best <;> rfl

/-- The nearest of the candidates so far, with its distance. -/
theorem foldl_nearer (name : String) (candidates : List String) :
    ∃ r, Nearest name candidates r ∧ (candidates.filterMap (close? name)).foldl nearer none =
      r.map fun s => (editDistance name s, s) := by
  have hlimit : limit name = max 1 (name.length / 3) := Nat.max_comm _ _
  induction candidates using List.reverseRecOn with
  | nil => exact ⟨none, .none nofun, rfl⟩
  | append_singleton candidates c ih =>
    obtain ⟨r, hr, hfold⟩ := ih
    rw [List.filterMap_append, List.foldl_append, hfold]
    by_cases hclose : editDistance name c ≤ limit name
    · have hc : [c].filterMap (close? name) = [(editDistance name c, c)] :=
        List.filterMap_cons_some (if_pos hclose)
      rw [hc, List.foldl_cons, List.foldl_nil]
      rw [hlimit] at hclose
      cases r with
      | none =>
        refine ⟨some c, .take hclose fun r' hr' => ?_, rfl⟩
        cases hr with
        | none far => exact Nat.lt_of_le_of_lt hclose (far r' hr')
      | some s =>
        by_cases hlt : editDistance name c < editDistance name s
        · refine ⟨some c, .take hclose fun r' hr' => ?_, if_pos hlt⟩
          exact Nat.lt_of_lt_of_le hlt (hr.le r' hr')
        · exact ⟨some s, hr.keep (Nat.le_of_not_lt hlt), if_neg hlt⟩
    · have hc : [c].filterMap (close? name) = [] := List.filterMap_cons_none (if_neg hclose)
      rw [hc, List.foldl_nil]
      exact ⟨r, hr.skip (hlimit ▸ Nat.lt_of_not_le hclose), rfl⟩

/-- Where the name itself is no candidate, the nearest one is found. -/
theorem similar?_nearest (hname : name ∉ candidates) :
    Nearest name candidates (similar? name candidates) := by
  obtain ⟨r, hr, hfold⟩ := foldl_nearer name candidates
  rw [similar?_eq hname, hfold]
  cases r <;> exact hr

end Heightfield.Suggestion
