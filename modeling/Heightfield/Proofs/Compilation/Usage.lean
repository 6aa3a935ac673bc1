import Heightfield.Proofs.Compilation.Assembly
import Heightfield.Proofs.Compilation.Growth
import Heightfield.Proofs.Expr.Names

/-! Which entries of the scope a compilation marks as used: those that the free names of the
expression find, in the scope around it. A binder that is left therefore knows whether its name was
free in its body. -/

namespace Heightfield

namespace Scope

/-- The entries once each of the names was looked up. -/
def markAll (names : List String) (entries : List ScopeEntry) : List ScopeEntry :=
  names.foldl (fun entries name => markUsed name entries) entries

/-- The scope once each of the names was looked up. -/
def lookupAll (s : Scope) (names : List String) : Scope :=
  { s with entries := markAll names s.entries }

/-- The innermost entry is found by its name, and hides the name from the outer ones. -/
theorem markAll_cons (names : List String) (entry : ScopeEntry) (entries : List ScopeEntry) :
    markAll names (entry :: entries) =
      { entry with used := entry.used || decide (entry.name ∈ names) } ::
        markAll (names.filter (· ≠ entry.name)) entries := by
  induction names generalizing entry entries with
  | nil => simp [markAll]
  | cons name names ih =>
    have hstep : ∀ es, markAll (name :: names) es = markAll names (markUsed name es) :=
      fun _ => rfl
    rw [hstep, markUsed]
    by_cases hname : entry.name = name
    · simp [ih, hname]
    · have hfilter : (name :: names).filter (· ≠ entry.name) =
          name :: names.filter (· ≠ entry.name) := by
        simp [Ne.symm hname]
      rw [if_neg hname, ih, hfilter]
      simp [hname, markAll]

variable (s : Scope) (names others : List String)

theorem lookupAll_append :
    s.lookupAll (names ++ others) = (s.lookupAll names).lookupAll others := by
  simp [lookupAll, markAll]

theorem pop_lookupAll_pushValue (n : String) : ((s.pushValue n).lookupAll names).pop =
    (decide (n ∈ names), s.lookupAll (names.filter (· ≠ n))) := by
  simp [lookupAll, pushValue, markAll_cons, pop]

theorem pop_lookupAll_pushFunction (n : String) (index arity : Nat) :
    ((s.pushFunction n index arity).lookupAll names).pop =
      (decide (n ∈ names), s.lookupAll (names.filter (· ≠ n))) := by
  simp [lookupAll, pushFunction, markAll_cons, pop]

theorem leaveMany_lookupAll (ps : List Ident) :
    ((s.pushValues ps).lookupAll names).leaveMany ps.length =
      s.lookupAll (names.filter (· ∉ ps.map (·.name))) := by
  induction ps generalizing s with
  | nil => exact congrArg s.lookupAll (Expr.filter_params_nil names).symm
  | cons p ps ih =>
    have h := ih (s.pushValue p.name)
    simp only [pushValues, List.foldl_cons, List.length_cons, leaveMany] at h ⊢
    rw [h, pop_lookupAll_pushValue, Expr.filter_params_cons]

end Scope

namespace Compilation

theorem callOf_scope {target : Callee} {codes : List Code} {c c' : Compilation} {code : Code}
    (h : callOf target codes c = .ok code c') : c'.scope = c.scope := by
  cases target <;> cases h <;> rfl

variable {c c' c₁ c₂ : Compilation} {n : Ident} {params : List Ident}
  {bound body context : Expr} {s : Span} {code value inner : Code}

/-- The scope behind the body of a function, which then sees only the function's own name. -/
theorem scope_closed (h : c₁.scope = (c.inside n params).scope.lookupAll body.freeNames)
    (index : Nat) (inner : Code) : (c₁.closed index params inner).scope =
      (c.scope.pushFunction n.name c.functions.size params.length).lookupAll
        (body.freeNames.filter (· ∉ params.map (·.name))) := by
  rw [closed, h, inside, Scope.leaveMany_lookupAll]

mutual

theorem codeOf_scope : ∀ (e : Expr) {c c' : Compilation} {code : Code},
    codeOf e c = .ok code c' → c'.scope = c.scope.lookupAll e.freeNames
  | .number _ _, _, _, _, h => by
    obtain ⟨-, rfl⟩ := number_ok h
    rfl
  | .reference n _, _, _, _, h => by
    obtain ⟨rfl, -⟩ := reference_ok h
    rfl
  | .call n args _, _, _, _, h => by
    obtain ⟨target, c₁, codes, c₂, hcallee, hargs, hcall⟩ := call_ok h
    obtain ⟨rfl, -⟩ := callee_ok hcallee
    exact (callOf_scope hcall).trans (codesOf_scope args hargs)
  | .unary _ _ operand _, _, _, _, h => by
    obtain ⟨-, -, inner, hinner, -⟩ := unary_ok h
    exact codeOf_scope operand hinner
  | .binary _ left right _, _, _, _, h => by
    obtain ⟨l, c₁, r, hl, hr, -⟩ := binary_ok h
    rw [codeOf_scope right hr, codeOf_scope left hl]
    exact (Scope.lookupAll_append _ _ _).symm
  | .binding n bound body _, c, _, _, h => by
    obtain ⟨value, c₁, inner, c₂, hbound, hbody, -, rfl⟩ := binding_ok h
    have hscope : c₂.scope = (c₁.scope.pushValue n.name).lookupAll body.freeNames :=
      codeOf_scope body hbody
    rw [left, hscope, Scope.pop_lookupAll_pushValue, codeOf_scope bound hbound]
    exact (Scope.lookupAll_append _ _ _).symm
  | .function n params body context _, c, _, _, h => by
    obtain ⟨-, inner, c₁, c₂, hbody, hcontext, rfl⟩ := function_ok h
    have hclosed := scope_closed (codeOf_scope body hbody) c.functions.size inner
    rw [logged, left, codeOf_scope context hcontext, hclosed, ← Scope.lookupAll_append,
      Scope.pop_lookupAll_pushFunction]
    rfl
  | .conditional condition positive negative _, _, _, _, h => by
    obtain ⟨test, c₁, yes, c₂, no, htest, hyes, hno, -⟩ := conditional_ok h
    rw [codeOf_scope negative hno, codeOf_scope positive hyes, codeOf_scope condition htest,
      ← Scope.lookupAll_append, ← Scope.lookupAll_append, ← List.append_assoc]
    rfl

theorem codesOf_scope : ∀ (es : List Expr) {c c' : Compilation} {codes : List Code},
    codesOf es c = .ok codes c' → c'.scope = c.scope.lookupAll (Expr.freeNamesAll es)
  | [], _, _, _, h => by
    obtain ⟨-, rfl⟩ := codesOf_nil_ok h
    rfl
  | e :: es, _, _, _, h => by
    obtain ⟨first, c₁, others, hfirst, hothers, -⟩ := codesOf_cons_ok h
    rw [codesOf_scope es hothers, codeOf_scope e hfirst]
    exact (Scope.lookupAll_append _ _ _).symm

end

/-- A bound value was used if its name is free in the body. -/
theorem used_under (h : codeOf body (c.under n) = .ok code c') :
    c'.scope.pop.1 = decide (n.name ∈ body.freeNames) := by
  have hscope : c'.scope = (c.scope.pushValue n.name).lookupAll body.freeNames :=
    codeOf_scope body h
  rw [hscope, Scope.pop_lookupAll_pushValue]

/-- A function was used if its name is free in its body, and is no parameter, or in the context. -/
theorem used_closed (hbody : codeOf body (c.inside n params) = .ok inner c₁)
    (hcontext : codeOf context (c₁.closed c.functions.size params inner) = .ok code c₂) :
    c₂.scope.pop.1 = decide (n.name ∈
      body.freeNames.filter (· ∉ params.map (·.name)) ++ context.freeNames) := by
  rw [codeOf_scope context hcontext, scope_closed (codeOf_scope body hbody) c.functions.size inner,
    ← Scope.lookupAll_append, Scope.pop_lookupAll_pushFunction]

end Compilation

end Heightfield
