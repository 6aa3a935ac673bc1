import Heightfield.Proofs.Expr.Names
import Heightfield.Proofs.Termination

/-! The names that an expression calls and takes from around it. A part that calls no more makes for
a whole that calls no more. -/

namespace Heightfield.Expr

variable {m : String} {n : Ident} {params : List Ident} {bound body context : Expr} {s : Span}

theorem mem_outerCalls_binding : m ∈ (binding n bound body s).outerCalls ↔
    m ∈ bound.outerCalls ∨ m ∈ body.outerCalls ∧ m ≠ n.name := by
  simp only [outerCalls, List.mem_filter, List.mem_append, decide_eq_true_eq]

theorem mem_outerCalls_function : m ∈ (function n params body context s).outerCalls ↔
    (m ∈ body.outerCalls ∧ m ∉ params.map (·.name) ∨ m ∈ context.outerCalls) ∧ m ≠ n.name := by
  simp only [outerCalls, List.mem_filter, List.mem_append, decide_eq_true_eq]

theorem outerCallsAll_append (es fs : List Expr) :
    outerCallsAll (es ++ fs) = outerCallsAll es ++ outerCallsAll fs := by
  induction es with
  | nil => rfl
  | cons e es ih => rw [List.cons_append, outerCallsAll, ih, outerCallsAll, List.append_assoc]

/-- What is called from around an expression is called from around a part of it, or elsewhere in
it. -/
theorem mem_outerCalls_plug {e e' : Expr} (h : m ∈ e'.outerCalls → m ∈ e.outerCalls)
    (layer : Layer) : m ∈ (layer.plug e').outerCalls → m ∈ (layer.plug e).outerCalls := by
  cases layer <;>
    simp only [Layer.plug, outerCalls, outerCallsAll, outerCallsAll_append, List.mem_append,
      List.mem_cons, List.mem_filter] <;>
    grind

theorem mem_outerCalls_fill {e e' : Expr} (h : m ∈ e'.outerCalls → m ∈ e.outerCalls)
    (C : Context) : m ∈ (C.fill e').outerCalls → m ∈ (C.fill e).outerCalls := by
  induction C with
  | nil => exact h
  | cons layer C ih => exact mem_outerCalls_plug ih layer

end Heightfield.Expr
