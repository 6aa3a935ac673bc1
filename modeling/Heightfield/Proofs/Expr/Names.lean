import Heightfield.Proofs.Expr.Context

/-! The names that stand in an expression, and those of them that it takes from around it. -/

namespace Heightfield.Expr

section Params

variable (names : List String)

/-- Without parameters no name is taken. -/
theorem filter_params_nil :
    names.filter (· ∉ ([] : List Ident).map (·.name)) = names :=
  List.filter_eq_self.2 fun _ _ => by simp

theorem filter_params_cons (p : Ident) (ps : List Ident) :
    names.filter (· ∉ (p :: ps).map (·.name)) =
      (names.filter (· ∉ ps.map (·.name))).filter (· ≠ p.name) := by
  rw [List.filter_filter]
  exact List.filter_congr fun m _ => by simp

end Params

mutual

/-- Every name in the expression, at its binders and where they are used. -/
def names : Expr → List String
  | number _ _ => []
  | reference n _ => [n.name]
  | call n args _ => n.name :: namesAll args
  | unary _ _ operand _ => operand.names
  | binary _ left right _ => left.names ++ right.names
  | binding n bound body _ => n.name :: (bound.names ++ body.names)
  | function n params body context _ =>
    n.name :: (params.map (·.name) ++ body.names ++ context.names)
  | conditional condition positive negative _ =>
    condition.names ++ positive.names ++ negative.names

def namesAll : List Expr → List String
  | [] => []
  | e :: es => e.names ++ namesAll es

end

mutual

/-- The names that references and calls in the expression take from around it, in the order they
stand, each as often as it stands there. -/
def freeNames : Expr → List String
  | number _ _ => []
  | reference n _ => [n.name]
  | call n args _ => n.name :: freeNamesAll args
  | unary _ _ operand _ => operand.freeNames
  | binary _ left right _ => left.freeNames ++ right.freeNames
  | binding n bound body _ => bound.freeNames ++ body.freeNames.filter (· ≠ n.name)
  | function n params body context _ =>
    (body.freeNames.filter (· ∉ params.map (·.name)) ++ context.freeNames).filter (· ≠ n.name)
  | conditional condition positive negative _ =>
    condition.freeNames ++ positive.freeNames ++ negative.freeNames

def freeNamesAll : List Expr → List String
  | [] => []
  | e :: es => e.freeNames ++ freeNamesAll es

end

section Membership

variable {m : String} {n : Ident} {params : List Ident} {bound body context : Expr} {s : Span}

theorem mem_freeNames_binding : m ∈ (binding n bound body s).freeNames ↔
    m ∈ bound.freeNames ∨ m ∈ body.freeNames ∧ m ≠ n.name := by
  simp only [freeNames, List.mem_filter, List.mem_append, decide_eq_true_eq]

theorem mem_freeNames_function : m ∈ (function n params body context s).freeNames ↔
    (m ∈ body.freeNames ∧ m ∉ params.map (·.name) ∨ m ∈ context.freeNames) ∧ m ≠ n.name := by
  simp only [freeNames, List.mem_filter, List.mem_append, decide_eq_true_eq]

theorem mem_freeNamesAll {e : Expr} {es : List Expr} (he : e ∈ es) (hm : m ∈ e.freeNames) :
    m ∈ freeNamesAll es := by
  induction es with
  | nil => cases he
  | cons a es ih =>
    rcases List.mem_cons.1 he with rfl | he
    · exact List.mem_append_left _ hm
    · exact List.mem_append_right _ (ih he)

end Membership

mutual

theorem freeNames_subset (e : Expr) : e.freeNames ⊆ e.names := by
  intro m hm
  cases e with
  | number _ _ => exact hm
  | reference _ _ => exact hm
  | call n args _ => exact List.cons_subset_cons n.name (freeNamesAll_subset args) hm
  | unary _ _ operand _ => exact freeNames_subset operand hm
  | binary _ left right _ =>
    have hleft := @freeNames_subset left m
    have hright := @freeNames_subset right m
    grind [names, freeNames]
  | binding n bound body _ =>
    have hbound := @freeNames_subset bound m
    have hbody := @freeNames_subset body m
    grind [names, mem_freeNames_binding]
  | function n params body context _ =>
    have hbody := @freeNames_subset body m
    have hcontext := @freeNames_subset context m
    grind [names, mem_freeNames_function]
  | conditional condition positive negative _ =>
    have hcondition := @freeNames_subset condition m
    have hpositive := @freeNames_subset positive m
    have hnegative := @freeNames_subset negative m
    grind [names, freeNames]

theorem freeNamesAll_subset (es : List Expr) : freeNamesAll es ⊆ namesAll es := by
  intro m hm
  cases es with
  | nil => exact hm
  | cons e es =>
    have he := @freeNames_subset e m
    have hes := @freeNamesAll_subset es m
    grind [namesAll, freeNamesAll]

end

theorem namesAll_append (es fs : List Expr) :
    namesAll (es ++ fs) = namesAll es ++ namesAll fs := by
  induction es with
  | nil => rfl
  | cons e es ih => rw [List.cons_append, namesAll, ih, namesAll, List.append_assoc]

theorem names_subset_plug (layer : Layer) (e : Expr) : e.names ⊆ (layer.plug e).names := by
  intro m hm
  cases layer <;> simp [Layer.plug, names, namesAll, namesAll_append, hm]

theorem names_subset_fill (C : Context) (e : Expr) : e.names ⊆ (C.fill e).names := by
  induction C with
  | nil => exact List.Subset.refl _
  | cons layer C ih => exact List.Subset.trans ih (names_subset_plug layer _)

theorem ne_of_mem_freeNames {e : Expr} {m z : String} (hz : z ∉ e.names) (hm : m ∈ e.freeNames) :
    m ≠ z := by
  rintro rfl
  exact hz (freeNames_subset e hm)

end Heightfield.Expr
