import Heightfield.Proofs.Compilation.Success

/-! A compiled expression leaves the scope as it found it, up to the marks of use, and only adds to
the function table: one entry for each function that the expression defines. -/

namespace Heightfield

namespace Scope

/-- The scope without the marks of use. -/
def unmarked (s : Scope) : Scope :=
  { s with entries := s.entries.map fun e => { e with used := false } }

variable (s : Scope) (name : String)

@[simp] theorem unmarked_depth : s.unmarked.depth = s.depth := rfl

@[simp] theorem unmarked_pushValue : (s.pushValue name).unmarked = s.unmarked.pushValue name := rfl

@[simp] theorem unmarked_pushFunction (index arity : Nat) :
    (s.pushFunction name index arity).unmarked = s.unmarked.pushFunction name index arity := rfl

@[simp] theorem unmarked_pushValues (ps : List Ident) :
    (s.pushValues ps).unmarked = s.unmarked.pushValues ps := by
  induction ps generalizing s with
  | nil => rfl
  | cons p ps ih => exact ih (s.pushValue p.name)

@[simp] theorem unmarked_pop : s.pop.2.unmarked = s.unmarked.pop.2 := by
  obtain ⟨entries, depth⟩ := s
  cases entries with
  | nil => rfl
  | cons e entries =>
    obtain ⟨n, b, used⟩ := e
    cases b <;> rfl

@[simp] theorem unmarked_leaveMany (k : Nat) :
    (s.leaveMany k).unmarked = s.unmarked.leaveMany k := by
  induction k with
  | zero => rfl
  | succ k ih => simp only [leaveMany, unmarked_pop, ih]

@[simp] theorem unmarked_lookup : (s.lookup name).2.unmarked = s.unmarked := by
  rw [lookup, unmarked, map_markUsed fun _ => rfl]
  rfl

@[simp] theorem lookup_unmarked : (s.unmarked.lookup name).1 = (s.lookup name).1 := by
  obtain ⟨entries, depth⟩ := s
  simp only [lookup, unmarked]
  induction entries with
  | nil => rfl
  | cons e entries ih =>
    by_cases he : e.name = name
    · simp [he]
    · simpa [he] using ih

theorem leaveMany_pushValues (ps : List Ident) : (s.pushValues ps).leaveMany ps.length = s := by
  induction ps generalizing s with
  | nil => rfl
  | cons p ps ih =>
    have h := ih (s.pushValue p.name)
    simp only [pushValues, List.foldl_cons, List.length_cons, leaveMany] at h ⊢
    rw [h]
    rfl

end Scope

namespace Expr

mutual

/-- How many functions are defined anywhere in the expression. -/
def functionNodes : Expr → Nat
  | number _ _ | reference _ _ => 0
  | call _ args _ => functionNodesAll args
  | unary _ _ operand _ => operand.functionNodes
  | binary _ left right _ => left.functionNodes + right.functionNodes
  | binding _ bound body _ => bound.functionNodes + body.functionNodes
  | function _ _ body context _ => 1 + body.functionNodes + context.functionNodes
  | conditional condition positive negative _ =>
    condition.functionNodes + positive.functionNodes + negative.functionNodes

def functionNodesAll : List Expr → Nat
  | [] => 0
  | e :: es => e.functionNodes + functionNodesAll es

end

end Expr

namespace Compilation

/-- From `c` to `c'` the function table got `nodes` new entries above those it had, and `rand` may
have been called. -/
structure Grows (nodes : Nat) (c c' : Compilation) : Prop where
  size : c'.functions.size = c.functions.size + nodes
  kept : ∀ i < c.functions.size, c'.functions[i]? = c.functions[i]?
  random : c.usesRandom = true → c'.usesRandom = true

/-- Growth that leaves the scope as it was. -/
structure Extends (nodes : Nat) (c c' : Compilation) : Prop extends Grows nodes c c' where
  scope : c'.scope.unmarked = c.scope.unmarked

namespace Grows

variable {m n : Nat} {a b c c' c₁ c₂ : Compilation}

theorem trans (h₁ : Grows m a b) (h₂ : Grows n b c) : Grows (m + n) a c where
  size := by rw [h₂.size, h₁.size, Nat.add_assoc]
  kept i hi := (h₂.kept i (by rw [h₁.size]; omega)).trans (h₁.kept i hi)
  random := fun h => h₂.random (h₁.random h)

/-- Bindings take no place in the table. -/
theorem of_under {name : Ident} (h : Grows n (c.under name) c') : Grows n c c' :=
  ⟨h.size, h.kept, h.random⟩

theorem left (h : Grows n a b) (w : CompileWarning) : Grows n a (b.left w) :=
  ⟨h.size, h.kept, h.random⟩

theorem logged (h : Grows n a b) (name : String) (index : Nat) : Grows n a (b.logged name index) :=
  ⟨h.size, h.kept, h.random⟩

/-- A function fills the place it took, and that place lies above all that was there before. -/
theorem inside {name : Ident} {params : List Ident} {inner : Code}
    (h₁ : Grows m (c.inside name params) c₁)
    (h₂ : Grows n (c₁.closed c.functions.size params inner) c₂) : Grows (1 + m + n) c c₂ where
  size := by
    rw [h₂.size, closed, Array.size_setIfInBounds, h₁.size, Compilation.inside, Array.size_push]
    omega
  kept i hi := by
    have hsize : c₁.functions.size = c.functions.size + 1 + m := by
      rw [h₁.size, Compilation.inside, Array.size_push]
    have hbody : c₁.functions[i]? = c.functions[i]? := by
      rw [h₁.kept i (by rw [Compilation.inside, Array.size_push]; omega), Compilation.inside]
      exact (Array.getElem?_push_lt hi).trans (Array.getElem?_eq_getElem hi).symm
    rw [h₂.kept i (by rw [closed, Array.size_setIfInBounds, hsize]; omega), closed,
      Array.getElem?_setIfInBounds_ne (by omega), hbody]
  random := fun h => h₂.random (h₁.random h)

end Grows

namespace Extends

variable {m n : Nat} {a b c c' c₁ c₂ : Compilation}

theorem refl (c : Compilation) : Extends 0 c c := ⟨⟨rfl, fun _ _ => rfl, id⟩, rfl⟩

theorem trans (h₁ : Extends m a b) (h₂ : Extends n b c) : Extends (m + n) a c :=
  ⟨h₁.toGrows.trans h₂.toGrows, h₂.scope.trans h₁.scope⟩

theorem lookup (c : Compilation) (name : String) :
    Extends 0 c { c with scope := (c.scope.lookup name).2 } :=
  ⟨⟨rfl, fun _ _ => rfl, id⟩, c.scope.unmarked_lookup name⟩

/-- Behind its body a binding is left again. -/
theorem scope_under {name : Ident} (h₁ : Extends m c c₁) (h₂ : Extends n (c₁.under name) c₂) :
    c₂.scope.pop.2.unmarked = c.scope.unmarked := by
  rw [Scope.unmarked_pop, h₂.scope]
  exact h₁.scope

/-- Behind its body a function has left its parameters and kept its name. -/
theorem scope_closed {name : Ident} {params : List Ident} (index : Nat) (inner : Code)
    (h : Extends m (c.inside name params) c₁) :
    (c₁.closed index params inner).scope.unmarked =
      c.scope.unmarked.pushFunction name.name c.functions.size params.length := by
  rw [closed, Scope.unmarked_leaveMany, h.scope, inside, Scope.unmarked_pushValues,
    Scope.leaveMany_pushValues, Scope.unmarked_pushFunction]

end Extends

theorem reference_extends {n : Ident} {c c' : Compilation} {code : Code}
    (h : reference n c = .ok code c') : Extends 0 c c' := by
  obtain ⟨rfl, -⟩ := reference_ok h
  exact .lookup c n.name

theorem callee_extends {n : Ident} {c c' : Compilation} {target : Callee × Nat}
    (h : callee n c = .ok target c') : Extends 0 c c' := by
  obtain ⟨rfl, -⟩ := callee_ok h
  exact .lookup c n.name

theorem callOf_extends {target : Callee} {codes : List Code} {c c' : Compilation} {code : Code}
    (h : callOf target codes c = .ok code c') : Extends 0 c c' := by
  cases target with
  | function index hops =>
    obtain ⟨-, rfl⟩ := by simpa [callOf] using h
    exact .refl c
  | math f =>
    obtain ⟨-, rfl⟩ := by simpa [callOf] using h
    exact .refl c
  | random =>
    simp only [callOf, bind_eq_ok] at h
    obtain ⟨_, c₁, hset, h⟩ := h
    cases hset
    cases h
    exact ⟨⟨rfl, fun _ _ => rfl, fun _ => rfl⟩, rfl⟩

mutual

theorem codeOf_extends (e : Expr) {c c' : Compilation} {code : Code}
    (h : codeOf e c = .ok code c') : Extends e.functionNodes c c' := by
  cases e with
  | number value s =>
    obtain ⟨-, rfl⟩ := number_ok h
    exact .refl _
  | reference n s => exact reference_extends h
  | call n args s =>
    obtain ⟨target, c₁, codes, c₂, hcallee, hargs, hcall⟩ := call_ok h
    have h₁ := (callee_extends hcallee).trans (codesOf_extends args hargs)
    simpa [Expr.functionNodes] using h₁.trans (callOf_extends hcall)
  | unary op fixity operand s =>
    obtain ⟨-, -, inner, hinner, -⟩ := unary_ok h
    exact codeOf_extends operand hinner
  | binary op left right s =>
    obtain ⟨l, c₁, r, hl, hr, -⟩ := binary_ok h
    exact (codeOf_extends left hl).trans (codeOf_extends right hr)
  | binding n bound body s =>
    obtain ⟨value, c₁, inner, c₂, hbound, hbody, -, rfl⟩ := binding_ok h
    have h₁ := codeOf_extends bound hbound
    have h₂ := codeOf_extends body hbody
    exact ⟨(h₁.toGrows.trans h₂.toGrows.of_under).left _, h₁.scope_under h₂⟩
  | function n params body context s =>
    obtain ⟨-, inner, c₁, c₂, hbody, hcontext, rfl⟩ := function_ok h
    have h₁ := codeOf_extends body hbody
    have h₂ := codeOf_extends context hcontext
    refine ⟨((h₁.toGrows.inside h₂.toGrows).left _).logged _ _, ?_⟩
    rw [logged, left, Scope.unmarked_pop, h₂.scope, h₁.scope_closed]
    rfl
  | conditional condition positive negative s =>
    obtain ⟨test, c₁, yes, c₂, no, ht, hy, hn, -⟩ := conditional_ok h
    exact ((codeOf_extends condition ht).trans (codeOf_extends positive hy)).trans
      (codeOf_extends negative hn)

theorem codesOf_extends (es : List Expr) {c c' : Compilation} {codes : List Code}
    (h : codesOf es c = .ok codes c') : Extends (Expr.functionNodesAll es) c c' := by
  cases es with
  | nil =>
    obtain ⟨-, rfl⟩ := codesOf_nil_ok h
    exact .refl _
  | cons e es =>
    obtain ⟨first, c₁, others, hfirst, hothers, -⟩ := codesOf_cons_ok h
    exact (codeOf_extends e hfirst).trans (codesOf_extends es hothers)

end

end Compilation

end Heightfield
