import Heightfield.Proofs.Compilation.Effects

/-! What a success of `codeOf` says about the parts of the expression: one lemma for each kind of
node, with the states in which its parts are compiled and the state behind it. -/

namespace Heightfield.Compilation

variable {c c' : Compilation} {code : Code}

theorem number_ok {value : Float} {s : Span} (h : codeOf (.number value s) c = .ok code c') :
    code = .const value ∧ c' = c := by
  simp only [codeOf_number_eq, pure_apply, EStateM.Result.ok.injEq] at h
  exact ⟨h.1.symm, h.2.symm⟩

/-- A name that stands for a value: a binding, a coordinate or a constant, in this order. -/
theorem reference_ok {n : Ident} (h : reference n c = .ok code c') :
    c' = { c with scope := (c.scope.lookup n.name).2 } ∧
      ((∃ slot, (c.scope.lookup n.name).1 = some (.value slot) ∧
          code = .frame (c.scope.hopsTo slot)) ∨
        (c.scope.lookup n.name).1 = none ∧
          ((∃ p, Param.lookup? n.name = some p ∧ code = .param p) ∨
            Param.lookup? n.name = none ∧
              ∃ v, Builtin.lookup? n.name = some (.constant v) ∧ code = .const v)) := by
  simp only [reference, bind_apply, lookup_apply] at h
  cases hl : (c.scope.lookup n.name).1 with
  | some b =>
    cases b with
    | value slot =>
      obtain ⟨rfl, rfl⟩ := by simpa [hl, bind_apply] using h
      exact ⟨rfl, .inl ⟨slot, rfl, rfl⟩⟩
    | function => simp [hl] at h
  | none =>
    cases hp : Param.lookup? n.name with
    | some p =>
      obtain ⟨rfl, rfl⟩ := by simpa [hl, hp] using h
      exact ⟨rfl, .inr ⟨rfl, .inl ⟨p, rfl, rfl⟩⟩⟩
    | none =>
      cases hb : Builtin.lookup? n.name with
      | none => simp [hl, hp, hb] at h
      | some b =>
        cases b with
        | constant v =>
          obtain ⟨rfl, rfl⟩ := by simpa [hl, hp, hb] using h
          exact ⟨rfl, .inr ⟨rfl, .inr ⟨rfl, v, rfl, rfl⟩⟩⟩
        | math f => simp [hl, hp, hb] at h
        | random => simp [hl, hp, hb] at h

/-- A name that can be called: a function in scope or a builtin one. -/
theorem callee_ok {n : Ident} {target : Callee} {arity : Nat}
    (h : callee n c = .ok (target, arity) c') :
    c' = { c with scope := (c.scope.lookup n.name).2 } ∧
      ((∃ index depth, (c.scope.lookup n.name).1 = some (.function index arity depth) ∧
          target = .function index (c.scope.depth - depth)) ∨
        (c.scope.lookup n.name).1 = none ∧ Param.lookup? n.name = none ∧
          ((∃ f, Builtin.lookup? n.name = some (.math f) ∧ target = .math f ∧ arity = 1) ∨
            Builtin.lookup? n.name = some .random ∧ target = .random ∧ arity = 0)) := by
  simp only [callee, bind_apply, lookup_apply] at h
  cases hl : (c.scope.lookup n.name).1 with
  | some b =>
    cases b with
    | value => simp [hl] at h
    | function index arity' depth =>
      obtain ⟨⟨rfl, rfl⟩, rfl⟩ := by simpa [hl, bind_apply] using h
      exact ⟨rfl, .inl ⟨index, depth, rfl, rfl⟩⟩
  | none =>
    cases hp : Param.lookup? n.name with
    | some p => simp [hl, hp] at h
    | none =>
      cases hb : Builtin.lookup? n.name with
      | none => simp [hl, hp, hb] at h
      | some b =>
        cases b with
        | constant v => simp [hl, hp, hb] at h
        | math f =>
          obtain ⟨⟨rfl, rfl⟩, rfl⟩ := by simpa [hl, hp, hb] using h
          exact ⟨rfl, .inr ⟨rfl, rfl, .inl ⟨f, rfl, rfl, rfl⟩⟩⟩
        | random =>
          obtain ⟨⟨rfl, rfl⟩, rfl⟩ := by simpa [hl, hp, hb] using h
          exact ⟨rfl, .inr ⟨rfl, rfl, .inr ⟨rfl, rfl, rfl⟩⟩⟩

theorem call_ok {n : Ident} {args : List Expr} {s : Span}
    (h : codeOf (.call n args s) c = .ok code c') :
    ∃ target c₁ codes c₂, callee n c = .ok (target, args.length) c₁ ∧
      codesOf args c₁ = .ok codes c₂ ∧ callOf target codes c₂ = .ok code c' := by
  simp only [codeOf_call_eq, bind_eq_ok] at h
  obtain ⟨⟨target, arity⟩, c₁, hcallee, h⟩ := h
  by_cases harity : args.length = arity
  · subst harity
    simp only [ne_eq, not_true_eq_false, ↓reduceIte, bind_eq_ok] at h
    obtain ⟨codes, c₂, hargs, h⟩ := h
    exact ⟨target, c₁, codes, c₂, hcallee, hargs, h⟩
  · simp [harity, bind_apply] at h

theorem unary_ok {op : Op} {fixity : Fixity} {operand : Expr} {s : Span}
    (h : codeOf (.unary op fixity operand s) c = .ok code c') :
    fixity = .prefixed ∧ (op = .add ∨ op = .sub) ∧
      ∃ inner, codeOf operand c = .ok inner c' ∧
        code = if op = .sub then .negate inner else inner := by
  rw [codeOf_unary_eq] at h
  by_cases hop : fixity = .prefixed ∧ (op = .add ∨ op = .sub)
  · rw [if_pos hop, bind_eq_ok] at h
    obtain ⟨inner, c₁, hinner, h⟩ := h
    cases h
    exact ⟨hop.1, hop.2, inner, hinner, rfl⟩
  · rw [if_neg hop] at h
    cases h

theorem binary_ok {op : Op} {left right : Expr} {s : Span}
    (h : codeOf (.binary op left right s) c = .ok code c') :
    ∃ l c₁ r, codeOf left c = .ok l c₁ ∧ codeOf right c₁ = .ok r c' ∧ code = .binary op l r := by
  simp only [codeOf_binary_eq, bind_eq_ok] at h
  obtain ⟨l, c₁, hl, r, c₂, hr, h⟩ := h
  obtain ⟨rfl, rfl⟩ := by simpa using h
  exact ⟨l, c₁, r, hl, hr, rfl⟩

theorem binding_ok {n : Ident} {bound body : Expr} {s : Span}
    (h : codeOf (.binding n bound body s) c = .ok code c') :
    ∃ value c₁ inner c₂, codeOf bound c = .ok value c₁ ∧
      codeOf body (c₁.under n) = .ok inner c₂ ∧ code = .bind value inner ∧
      c' = c₂.left (.unusedBinding n.name n.span) := by
  rw [codeOf_binding_eq, bind_eq_ok] at h
  obtain ⟨value, c₁, hbound, h⟩ := h
  rw [bind_of_ok (openBinding_apply c₁ n)] at h
  cases hbody : codeOf body (c₁.under n) with
  | error e c₂ =>
    rw [scoped_error hbody] at h
    cases h
  | ok inner c₂ =>
    rw [scoped_ok hbody, unless_used_warn] at h
    cases h
    exact ⟨value, c₁, inner, c₂, hbound, hbody, rfl, rfl⟩

theorem function_ok {n : Ident} {params : List Ident} {body context : Expr} {s : Span}
    (h : codeOf (.function n params body context s) c = .ok code c') :
    repeated? params [] = none ∧ ∃ inner c₁ c₂,
      codeOf body (c.inside n params) = .ok inner c₁ ∧
      codeOf context (c₁.closed c.functions.size params inner) = .ok code c₂ ∧
      c' = (c₂.left (.unusedFunction n.name n.span)).logged n.name c.functions.size := by
  rw [codeOf_function_eq] at h
  cases hparams : repeated? params [] with
  | some p =>
    simp only [hparams] at h
    cases h
  | none =>
    simp only [hparams] at h
    rw [bind_of_ok (openFunction_apply c n params)] at h
    refine ⟨rfl, ?_⟩
    cases hbody : codeOf body (c.inside n params) with
    | error e c₁ =>
      rw [closing_error _ params hbody] at h
      cases h
    | ok inner c₁ =>
      rw [closing_ok _ params hbody] at h
      cases hcontext : codeOf context (c₁.closed c.functions.size params inner) with
      | error e c₂ =>
        rw [scoped_error hcontext] at h
        cases h
      | ok outer c₂ =>
        rw [scoped_ok hcontext, unless_used_warn] at h
        cases h
        exact ⟨inner, c₁, c₂, rfl, hcontext, rfl⟩

theorem conditional_ok {condition positive negative : Expr} {s : Span}
    (h : codeOf (.conditional condition positive negative s) c = .ok code c') :
    ∃ test c₁ yes c₂ no, codeOf condition c = .ok test c₁ ∧ codeOf positive c₁ = .ok yes c₂ ∧
      codeOf negative c₂ = .ok no c' ∧ code = .branch test yes no := by
  simp only [codeOf_conditional_eq, bind_eq_ok] at h
  obtain ⟨test, c₁, ht, yes, c₂, hy, no, c₃, hn, h⟩ := h
  obtain ⟨rfl, rfl⟩ := by simpa using h
  exact ⟨test, c₁, yes, c₂, no, ht, hy, hn, rfl⟩

theorem codesOf_nil_ok {codes : List Code} (h : codesOf [] c = .ok codes c') :
    codes = [] ∧ c' = c := by
  simp only [codesOf_nil_eq, pure_apply, EStateM.Result.ok.injEq] at h
  exact ⟨h.1.symm, h.2.symm⟩

theorem codesOf_cons_ok {e : Expr} {es : List Expr} {codes : List Code}
    (h : codesOf (e :: es) c = .ok codes c') :
    ∃ first c₁ others, codeOf e c = .ok first c₁ ∧ codesOf es c₁ = .ok others c' ∧
      codes = first :: others := by
  simp only [codesOf_cons_eq, bind_eq_ok] at h
  obtain ⟨first, c₁, hfirst, others, c₂, hothers, h⟩ := h
  obtain ⟨rfl, rfl⟩ := by simpa using h
  exact ⟨first, c₁, others, hfirst, hothers, rfl⟩

theorem codesOf_append {es fs : List Expr} {codes : List Code} :
    codesOf (es ++ fs) c = .ok codes c' ↔ ∃ front c₁ back, codesOf es c = .ok front c₁ ∧
      codesOf fs c₁ = .ok back c' ∧ codes = front ++ back := by
  induction es generalizing c codes with
  | nil =>
    constructor
    · exact fun h => ⟨[], c, codes, rfl, h, rfl⟩
    · rintro ⟨front, c₁, back, hfront, hback, rfl⟩
      obtain ⟨rfl, rfl⟩ := codesOf_nil_ok hfront
      exact hback
  | cons e es ih =>
    constructor
    · intro h
      obtain ⟨first, c₁, others, hfirst, hothers, rfl⟩ := codesOf_cons_ok h
      obtain ⟨front, c₂, back, hfront, hback, rfl⟩ := ih.1 hothers
      refine ⟨first :: front, c₂, back, ?_, hback, rfl⟩
      simp only [codesOf_cons_eq, bind_apply, hfirst, hfront, pure_apply]
    · rintro ⟨front, c₁, back, hfront, hback, rfl⟩
      obtain ⟨first, c₂, others, hfirst, hothers, rfl⟩ := codesOf_cons_ok hfront
      have hrest := ih.2 ⟨others, c₁, back, hothers, hback, rfl⟩
      simp only [List.cons_append, codesOf_cons_eq, bind_apply, hfirst, hrest, pure_apply]

theorem codesOf_length {es : List Expr} {codes : List Code} (h : codesOf es c = .ok codes c') :
    codes.length = es.length := by
  induction es generalizing c codes with
  | nil =>
    obtain ⟨rfl, -⟩ := codesOf_nil_ok h
    rfl
  | cons e es ih =>
    obtain ⟨first, c₁, others, -, hothers, rfl⟩ := codesOf_cons_ok h
    exact congrArg (· + 1) (ih hothers)

end Heightfield.Compilation
