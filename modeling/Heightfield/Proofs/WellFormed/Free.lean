import Heightfield.Proofs.Expr.Names
import Heightfield.Proofs.WellFormed

/-! Whether an expression is well-formed among some names depends on no more than what its free
names mean there. -/

namespace Heightfield

namespace Names

variable (names : Names) (n : Ident) (params : List Ident) (m : String)

theorem sense?_cons (sense : Sense) : sense? ((n.name, sense) :: names) m =
    if m = n.name then some sense else names.sense? m := by
  unfold sense?
  rw [List.lookup_cons]
  by_cases h : m = n.name
  · simp [h]
  · have hne : (m == n.name) = false := beq_eq_false_iff_ne.2 h
    rw [hne, if_neg h]

/-- A parameter hides what the name means around the function. -/
theorem sense?_params : sense? ((params.map fun p => (p.name, .value)).reverse ++ names) m =
    if m ∈ params.map (·.name) then some .value else names.sense? m := by
  induction params generalizing names with
  | nil => rfl
  | cons p ps ih =>
    rw [List.map_cons, List.reverse_cons, List.append_assoc]
    refine (ih ((p.name, .value) :: names)).trans ?_
    rw [sense?_cons]
    by_cases hps : m ∈ ps.map (·.name)
    · simp only [List.map_cons, List.mem_cons, hps, or_true, if_true]
    · simp only [List.map_cons, List.mem_cons, hps, or_false, if_false]

end Names

theorem WellFormed.congr {names names' : Names} {e : Expr} (h : WellFormed names e)
    (hsame : ∀ m ∈ e.freeNames, names'.sense? m = names.sense? m) : WellFormed names' e := by
  induction h generalizing names' with
  | number => exact .number
  | reference resolved => exact .reference ((hsame _ List.mem_cons_self).trans resolved)
  | @call names n args sp resolved parts ih =>
    refine .call ((hsame _ List.mem_cons_self).trans resolved) fun arg harg =>
      ih arg harg fun m hm => hsame m (List.mem_cons_of_mem _ ?_)
    exact Expr.mem_freeNamesAll harg hm
  | unary sign _ ih => exact .unary sign (ih hsame)
  | binary _ _ ih₁ ih₂ =>
    exact .binary (ih₁ fun m hm => hsame m (List.mem_append_left _ hm))
      (ih₂ fun m hm => hsame m (List.mem_append_right _ hm))
  | @binding names n bound body sp _ _ ih₁ ih₂ =>
    refine .binding (ih₁ fun m hm => hsame m (Expr.mem_freeNames_binding.2 (.inl hm)))
      (ih₂ fun m hm => ?_)
    unfold Names.bind
    rw [Names.sense?_cons, Names.sense?_cons]
    split
    · rfl
    · next hmn => exact hsame m (Expr.mem_freeNames_binding.2 (.inr ⟨hm, hmn⟩))
  | @function names n params body context sp distinct _ _ ih₁ ih₂ =>
    refine .function distinct (ih₁ fun m hm => ?_) (ih₂ fun m hm => ?_)
    · unfold Names.enter Names.define
      rw [Names.sense?_params, Names.sense?_params, Names.sense?_cons, Names.sense?_cons]
      split
      · rfl
      · next hps =>
        split
        · rfl
        · next hmn => exact hsame m (Expr.mem_freeNames_function.2 ⟨.inl ⟨hm, hps⟩, hmn⟩)
    · unfold Names.define
      rw [Names.sense?_cons, Names.sense?_cons]
      split
      · rfl
      · next hmn => exact hsame m (Expr.mem_freeNames_function.2 ⟨.inr hm, hmn⟩)
  | conditional _ _ _ ih₁ ih₂ ih₃ =>
    exact .conditional (ih₁ fun m hm => hsame m (by simp [Expr.freeNames, hm]))
      (ih₂ fun m hm => hsame m (by simp [Expr.freeNames, hm]))
      (ih₃ fun m hm => hsame m (by simp [Expr.freeNames, hm]))

/-- A binder that its body does not use can be left out. -/
theorem WellFormed.without {names : Names} {n : Ident} {sense : Sense} {e : Expr}
    (h : WellFormed ((n.name, sense) :: names) e) (hn : n.name ∉ e.freeNames) :
    WellFormed names e := by
  refine h.congr fun m hm => ?_
  rw [Names.sense?_cons, if_neg]
  rintro rfl
  exact hn hm

end Heightfield
