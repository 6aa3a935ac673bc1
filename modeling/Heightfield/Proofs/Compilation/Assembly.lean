import Heightfield.Proofs.Compilation.Success

/-! From the parts of an expression to the whole: where the parts have code, the node has, and this
is the code and the state behind it. -/

namespace Heightfield.Compilation

variable {c c₁ c₂ c' : Compilation}

section Names

variable {n : Ident}

theorem reference_value {slot : Nat} (hl : (c.scope.lookup n.name).1 = some (.value slot)) :
    reference n c =
      .ok (.frame (c.scope.hopsTo slot)) { c with scope := (c.scope.lookup n.name).2 } := by
  simp only [reference, bind_apply, lookup_apply, hl]
  rfl

theorem reference_coordinate {p : Param} (hl : (c.scope.lookup n.name).1 = none)
    (hp : Param.lookup? n.name = some p) :
    reference n c = .ok (.param p) { c with scope := (c.scope.lookup n.name).2 } := by
  simp only [reference, bind_apply, lookup_apply, hl, hp, pure_apply]

theorem reference_constant {v : Float} (hl : (c.scope.lookup n.name).1 = none)
    (hp : Param.lookup? n.name = none) (hb : Builtin.lookup? n.name = some (.constant v)) :
    reference n c = .ok (.const v) { c with scope := (c.scope.lookup n.name).2 } := by
  simp only [reference, bind_apply, lookup_apply, hl, hp, hb, pure_apply]

theorem callee_function {index arity depth : Nat}
    (hl : (c.scope.lookup n.name).1 = some (.function index arity depth)) :
    callee n c = .ok (.function index (c.scope.depth - depth), arity)
      { c with scope := (c.scope.lookup n.name).2 } := by
  simp only [callee, bind_apply, lookup_apply, hl]
  rfl

theorem callee_math {f : MathFunction} (hl : (c.scope.lookup n.name).1 = none)
    (hp : Param.lookup? n.name = none) (hb : Builtin.lookup? n.name = some (.math f)) :
    callee n c = .ok (.math f, 1) { c with scope := (c.scope.lookup n.name).2 } := by
  simp [callee, bind_apply, hl, hp, hb]

theorem callee_random (hl : (c.scope.lookup n.name).1 = none)
    (hp : Param.lookup? n.name = none) (hb : Builtin.lookup? n.name = some .random) :
    callee n c = .ok (.random, 0) { c with scope := (c.scope.lookup n.name).2 } := by
  simp [callee, bind_apply, hl, hp, hb]

end Names

theorem codeOf_call {n : Ident} {args : List Expr} {s : Span} {target : Callee}
    {codes : List Code} {code : Code} (hcallee : callee n c = .ok (target, args.length) c₁)
    (hargs : codesOf args c₁ = .ok codes c₂) (hcall : callOf target codes c₂ = .ok code c') :
    codeOf (.call n args s) c = .ok code c' := by
  simp only [codeOf_call_eq, bind_apply, hcallee, ne_eq, not_true_eq_false, ↓reduceIte, hargs, hcall]

theorem codeOf_unary {op : Op} {operand : Expr} {s : Span} {inner : Code}
    (hop : op = .add ∨ op = .sub) (hoperand : codeOf operand c = .ok inner c') :
    codeOf (.unary op .prefixed operand s) c =
      .ok (if op = .sub then .negate inner else inner) c' := by
  rw [codeOf_unary_eq, if_pos ⟨rfl, hop⟩, bind_of_ok hoperand, pure_apply]

theorem codeOf_binary {op : Op} {e₁ e₂ : Expr} {s : Span} {l r : Code}
    (hleft : codeOf e₁ c = .ok l c₁) (hright : codeOf e₂ c₁ = .ok r c') :
    codeOf (.binary op e₁ e₂ s) c = .ok (.binary op l r) c' := by
  simp only [codeOf_binary_eq, bind_apply, hleft, hright, pure_apply]

theorem codeOf_conditional {e₁ e₂ e₃ : Expr} {s : Span} {test yes no : Code}
    (htest : codeOf e₁ c = .ok test c₁) (hyes : codeOf e₂ c₁ = .ok yes c₂)
    (hno : codeOf e₃ c₂ = .ok no c') :
    codeOf (.conditional e₁ e₂ e₃ s) c = .ok (.branch test yes no) c' := by
  simp only [codeOf_conditional_eq, bind_apply, htest, hyes, hno, pure_apply]

theorem codeOf_binding {n : Ident} {bound body : Expr} {s : Span} {value inner : Code}
    (hbound : codeOf bound c = .ok value c₁) (hbody : codeOf body (c₁.under n) = .ok inner c₂) :
    codeOf (.binding n bound body s) c =
      .ok (.bind value inner) (c₂.left (.unusedBinding n.name n.span)) := by
  rw [codeOf_binding_eq, bind_of_ok hbound, bind_of_ok (openBinding_apply c₁ n), scoped_ok hbody,
    unless_used_warn, pure_apply]

theorem codeOf_function {n : Ident} {params : List Ident} {body context : Expr} {s : Span}
    {inner code : Code} (hparams : repeated? params [] = none)
    (hbody : codeOf body (c.inside n params) = .ok inner c₁)
    (hcontext : codeOf context (c₁.closed c.functions.size params inner) = .ok code c₂) :
    codeOf (.function n params body context s) c =
      .ok code ((c₂.left (.unusedFunction n.name n.span)).logged n.name c.functions.size) := by
  simp only [codeOf_function_eq, hparams]
  rw [bind_of_ok (openFunction_apply c n params), closing_ok _ params hbody, scoped_ok hcontext,
    unless_used_warn, bind_of_ok (logFunction_apply _ n.name _), pure_apply]

theorem codesOf_cons {e : Expr} {es : List Expr} {first : Code} {others : List Code}
    (hfirst : codeOf e c = .ok first c₁) (hothers : codesOf es c₁ = .ok others c') :
    codesOf (e :: es) c = .ok (first :: others) c' := by
  simp only [codesOf_cons_eq, bind_apply, hfirst, hothers, pure_apply]

end Heightfield.Compilation
