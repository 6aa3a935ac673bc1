import Heightfield.Expr

/-! Precedence climbing: how a flat sequence of operands and operators becomes a tree. An operator
is taken while its precedence is at least the least one admitted; its right operand is the longest
stretch that its own `nextLeast` admits. -/

namespace Heightfield.Expr

/-- What is written after the first operand. -/
abbrev Chain := List (OperatorDecl × Expr)

/-- Extends `left` by the operators of `rest` that `least` admits. Returns the tree and the part of
`rest` it did not take. -/
def climbFrom (left : Expr) (rest : Chain) (least : Nat) :
    { r : Expr × Chain // r.2.length ≤ rest.length } :=
  match rest with
  | [] => ⟨(left, []), Nat.le_refl _⟩
  | (decl, operand) :: tail =>
    if least ≤ decl.precedence then
      let ⟨(right, after), taken⟩ := climbFrom operand tail decl.nextLeast
      let ⟨result, taken'⟩ := climbFrom (combine decl.op left right) after least
      ⟨result, Nat.le_trans taken' (Nat.le_trans taken (Nat.le_succ _))⟩
    else ⟨(left, (decl, operand) :: tail), Nat.le_refl _⟩
termination_by rest.length
decreasing_by
  · simp
  · simp only at taken; simp only [List.length_cons]; omega

/-- What is left begins with an operator that `least` does not admit. -/
theorem lt_of_climbFrom_rest (left : Expr) (rest : Chain) (least : Nat)
    {decl : OperatorDecl} {operand : Expr} {tail : Chain}
    (h : (climbFrom left rest least).val.2 = (decl, operand) :: tail) :
    decl.precedence < least := by
  fun_induction climbFrom left rest least with
  | case1 => simp at h
  | case2 => simp_all
  | case3 left least d e rest hd =>
    simp only [List.cons.injEq, Prod.mk.injEq] at h
    obtain ⟨⟨rfl, -⟩, -⟩ := h
    omega

/-- Every precedence is admitted, so the whole sequence is taken. -/
def climb (first : Expr) (rest : Chain) : Expr := (climbFrom first rest 0).val.1

theorem climbFrom_zero_rest (first : Expr) (rest : Chain) :
    (climbFrom first rest 0).val.2 = [] := by
  cases h : (climbFrom first rest 0).val.2 with
  | nil => rfl
  | cons pair tail => exact absurd (lt_of_climbFrom_rest first rest 0 h) (Nat.not_lt_zero _)

end Heightfield.Expr
