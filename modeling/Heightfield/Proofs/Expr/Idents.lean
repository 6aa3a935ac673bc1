import Heightfield.Expr

/-! The names of an expression where they stand, and those of them that bind. -/

namespace Heightfield.Expr

mutual

/-- Every name in the expression, from left to right. -/
def idents : Expr → List Ident
  | number _ _ => []
  | reference n _ => [n]
  | call n args _ => n :: identsAll args
  | unary _ _ operand _ => operand.idents
  | binary _ left right _ => left.idents ++ right.idents
  | binding n bound body _ => n :: (bound.idents ++ body.idents)
  | function n params body context _ => n :: (params ++ (body.idents ++ context.idents))
  | conditional condition positive negative _ =>
    condition.idents ++ (positive.idents ++ negative.idents)

def identsAll : List Expr → List Ident
  | [] => []
  | e :: es => e.idents ++ identsAll es

end

theorem mem_identsAll {i : Ident} {es : List Expr} :
    i ∈ identsAll es ↔ ∃ e ∈ es, i ∈ e.idents := by
  induction es with
  | nil => simp [identsAll]
  | cons e es ih => simp [identsAll, ih]

mutual

/-- The names that a `let` binds, and the parameters of functions, from left to right. -/
def binders : Expr → List Ident
  | number _ _ | reference _ _ => []
  | call _ args _ => bindersAll args
  | unary _ _ operand _ => operand.binders
  | binary _ left right _ => left.binders ++ right.binders
  | binding n bound body _ => n :: (bound.binders ++ body.binders)
  | function n params body context _ => n :: (params ++ (body.binders ++ context.binders))
  | conditional condition positive negative _ =>
    condition.binders ++ (positive.binders ++ negative.binders)

def bindersAll : List Expr → List Ident
  | [] => []
  | e :: es => e.binders ++ bindersAll es

end

mutual

theorem binders_sublist : ∀ e : Expr, e.binders.Sublist e.idents
  | number _ _ => .slnil
  | reference _ _ => List.nil_sublist _
  | call _ args _ => (bindersAll_sublist args).cons _
  | unary _ _ operand _ => binders_sublist operand
  | binary _ left right _ => (binders_sublist left).append (binders_sublist right)
  | binding _ bound body _ => ((binders_sublist bound).append (binders_sublist body)).cons_cons _
  | function _ params body context _ =>
    ((List.Sublist.refl params).append
      ((binders_sublist body).append (binders_sublist context))).cons_cons _
  | conditional condition positive negative _ =>
    (binders_sublist condition).append
      ((binders_sublist positive).append (binders_sublist negative))

theorem bindersAll_sublist : ∀ es : List Expr, (bindersAll es).Sublist (identsAll es)
  | [] => .slnil
  | e :: es => (binders_sublist e).append (bindersAll_sublist es)

end

end Heightfield.Expr
