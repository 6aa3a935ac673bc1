import Heightfield.Compilation

/-! What each step of a compilation does to the state it runs in, and which steps each kind of node
takes. After this module no proof opens a step or `codeOf` again: it rewrites with the equation of
the step or of the node, or takes a success of `codeOf` apart. -/

namespace Heightfield

section Steps

variable {ε σ α β : Type}

theorem bind_apply (x : EStateM ε σ α) (f : α → EStateM ε σ β) (s : σ) :
    (x >>= f) s = match x s with
      | .ok a s₁ => f a s₁
      | .error e s₁ => .error e s₁ := rfl

theorem bind_of_ok {x : EStateM ε σ α} {f : α → EStateM ε σ β} {s s' : σ} {a : α}
    (h : x s = .ok a s') : (x >>= f) s = f a s' := by
  rw [bind_apply, h]

theorem bind_of_error {x : EStateM ε σ α} {f : α → EStateM ε σ β} {s s' : σ} {e : ε}
    (h : x s = .error e s') : (x >>= f) s = .error e s' := by
  rw [bind_apply, h]

theorem bind_eq_ok {x : EStateM ε σ α} {f : α → EStateM ε σ β} {s s' : σ} {b : β} :
    (x >>= f) s = .ok b s' ↔ ∃ a s₁, x s = .ok a s₁ ∧ f a s₁ = .ok b s' := by
  rw [bind_apply]
  constructor
  · intro h
    split at h
    · exact ⟨_, _, ‹_›, h⟩
    · cases h
  · rintro ⟨a, s₁, hx, hf⟩
    rw [hx]
    exact hf

theorem bind_eq_error {x : EStateM ε σ α} {f : α → EStateM ε σ β} {s s' : σ} {e : ε} :
    (x >>= f) s = .error e s' ↔
      x s = .error e s' ∨ ∃ a s₁, x s = .ok a s₁ ∧ f a s₁ = .error e s' := by
  rw [bind_apply]
  constructor
  · intro h
    split at h
    · exact .inr ⟨_, _, ‹_›, h⟩
    · cases h
      exact .inl ‹_›
  · rintro (hx | ⟨a, s₁, hx, hf⟩)
    · rw [hx]
    · rw [hx]
      exact hf

@[simp] theorem pure_apply (a : α) (s : σ) : (pure a : EStateM ε σ α) s = .ok a s := rfl

@[simp] theorem get_apply (s : σ) : (get : EStateM ε σ σ) s = .ok s s := rfl

@[simp] theorem throw_apply (e : ε) (s : σ) : (throw e : EStateM ε σ α) s = .error e s := rfl

end Steps

namespace Scope

/-- The scope under the parameters of a function. -/
def pushValues (s : Scope) (params : List Ident) : Scope :=
  params.foldl (fun s p => s.pushValue p.name) s

/-- The scope once the innermost `k` entries are left. -/
def leaveMany (s : Scope) : Nat → Scope
  | 0 => s
  | k + 1 => (s.leaveMany k).pop.2

end Scope

namespace Compilation

/-- What is reported where `n` is bound. -/
def shadowing (n : Ident) : List CompileWarning :=
  match shadowed? n.name with
  | some what => [.shadows n.name n.span what]
  | none => []

/-- Those of the innermost entries, one for each parameter, that no lookup has found. -/
def unusedParams : List Ident → Scope → List Ident
  | [], _ => []
  | p :: ps, s =>
    if (s.leaveMany ps.length).pop.1 then unusedParams ps s else p :: unusedParams ps s

/-- The state under the binding of `n`. -/
def under (c : Compilation) (n : Ident) : Compilation :=
  { c with scope := c.scope.pushValue n.name, warnings := c.warnings ++ shadowing n }

/-- The state in which the body of a function is compiled. The function holds the next place of the
table already. -/
def inside (c : Compilation) (n : Ident) (params : List Ident) : Compilation :=
  { c with
    scope := (c.scope.pushFunction n.name c.functions.size params.length).pushValues params
    functions := c.functions.push (.const Binary64.nan)
    warnings := c.warnings ++ shadowing n ++ params.flatMap shadowing }

/-- The state behind the body of function `index`, whose code is `inner`. -/
def closed (c : Compilation) (index : Nat) (params : List Ident) (inner : Code) : Compilation :=
  { c with
    scope := c.scope.leaveMany params.length
    functions := c.functions.setIfInBounds index inner
    warnings := c.warnings ++
      (unusedParams params c.scope).map fun p => .unusedParameter p.name p.span }

/-- The state behind the scope of a name, which `w` tells of if nothing has used it. -/
def left (c : Compilation) (w : CompileWarning) : Compilation :=
  { c with
    scope := c.scope.pop.2
    warnings := if c.scope.pop.1 then c.warnings else c.warnings ++ [w] }

/-- The state with the record that function `index` is compiled. -/
def logged (c : Compilation) (name : String) (index : Nat) : Compilation :=
  { c with
    journal := c.journal ++
      [⟨.trace, "function '" ++ name ++ "' compiled into slot " ++ toString index⟩] }

variable {α : Type} (c : Compilation)

@[simp] theorem lookup_apply (name : String) :
    lookup name c = .ok (c.scope.lookup name).1 { c with scope := (c.scope.lookup name).2 } := rfl

@[simp] theorem updateScope_apply (f : Scope → Scope) :
    updateScope f c = .ok () { c with scope := f c.scope } := rfl

@[simp] theorem reserve_apply : reserve c =
    .ok c.functions.size { c with functions := c.functions.push (.const Binary64.nan) } := rfl

@[simp] theorem leave_apply :
    leave c = .ok c.scope.pop.1 { c with scope := c.scope.pop.2 } := rfl

@[simp] theorem warn_apply (w : CompileWarning) :
    warn w c = .ok () { c with warnings := c.warnings ++ [w] } := rfl

@[simp] theorem logFunction_apply (name : String) (index : Nat) :
    logFunction name index c = .ok () (c.logged name index) := rfl

@[simp] theorem settle_ok (a : α) : settle (.ok a) c = .ok a c := rfl

@[simp] theorem settle_error (e : CompileError) :
    (settle (.error e) : Compile α) c = .error e c := rfl

theorem attempt_ok {x : Compile α} {a : α} {c c' : Compilation} (h : x c = .ok a c') :
    attempt x c = .ok (.ok a) c' := by
  simp only [attempt, h]

theorem attempt_error {x : Compile α} {e : CompileError} {c c' : Compilation}
    (h : x c = .error e c') : attempt x c = .ok (.error e) c' := by
  simp only [attempt, h]

@[simp] theorem unresolved_apply (n : Ident) :
    (unresolved n : Compile α) c = .error (.unresolvedReference n.name n.span
      (Suggestion.similar? n.name (candidates c.scope))) c := rfl

@[simp] theorem warnAll_apply (ws : List CompileWarning) :
    warnAll ws c = .ok () { c with warnings := c.warnings ++ ws } := by
  induction ws generalizing c with
  | nil => simp [warnAll]
  | cons w ws ih => simp [warnAll, bind_apply, ih]

@[simp] theorem noteShadowing_apply (n : Ident) :
    noteShadowing n c = .ok () { c with warnings := c.warnings ++ shadowing n } := by
  unfold noteShadowing shadowing
  cases shadowed? n.name <;> simp

@[simp] theorem openBinding_apply (n : Ident) : openBinding n c = .ok () (c.under n) := by
  simp only [openBinding, bind_apply, noteShadowing_apply]
  rfl

theorem bindParams_apply (ps : List Ident) :
    bindParams ps c = .ok ()
      { c with
        scope := c.scope.pushValues ps
        warnings := c.warnings ++ ps.flatMap shadowing } := by
  induction ps generalizing c with
  | nil => simp [bindParams, Scope.pushValues]
  | cons p ps ih => simp [bindParams, bind_apply, ih, Scope.pushValues, under]

@[simp] theorem openFunction_apply (n : Ident) (params : List Ident) :
    openFunction n params c = .ok c.functions.size (c.inside n params) := by
  simp only [openFunction, bind_apply, reserve_apply, noteShadowing_apply, updateScope_apply,
    bindParams_apply, pure_apply]
  rfl

theorem leaveParams_apply (ps : List Ident) :
    leaveParams ps c = .ok (unusedParams ps c.scope)
      { c with scope := c.scope.leaveMany ps.length } := by
  induction ps with
  | nil => rfl
  | cons p ps ih =>
    simp only [leaveParams, bind_apply, ih, leave_apply, pure_apply]
    rfl

@[simp] theorem closeFunction_ok (index : Nat) (params : List Ident) (inner : Code) :
    closeFunction index params (.ok inner) c = .ok () (c.closed index params inner) := by
  simp only [closeFunction, bind_apply, leaveParams_apply, settle_ok]
  exact warnAll_apply _ _

@[simp] theorem closeFunction_error (index : Nat) (params : List Ident) (e : CompileError) :
    closeFunction index params (.error e) c =
      .error e { c with scope := c.scope.leaveMany params.length } := by
  simp only [closeFunction, bind_apply, leaveParams_apply, settle_error]

theorem throw_of_some (found : Option Ident) (f : Ident → CompileError) (x : Compile α) :
    (do
      if let some p := found then throw (f p)
      x) = match found with
        | some p => throw (f p)
        | none => x := by
  cases found <;> rfl

section Scoped

variable {β : Type} {x : Compile α} {k : Bool → α → Compile β} {c c' : Compilation}

theorem scoped_ok {a : α} (h : x c = .ok a c') :
    (do
      let inner ← attempt x
      let used ← leave
      let inner ← settle inner
      k used inner) c = k c'.scope.pop.1 a { c' with scope := c'.scope.pop.2 } := by
  simp only [bind_apply, attempt_ok h, leave_apply, settle_ok]

/-- What fails within a scope leaves it all the same. -/
theorem scoped_error {e : CompileError} (h : x c = .error e c') :
    (do
      let inner ← attempt x
      let used ← leave
      let inner ← settle inner
      k used inner) c = .error e { c' with scope := c'.scope.pop.2 } := by
  simp only [bind_apply, attempt_error h, leave_apply, settle_error]

theorem closing_ok {x : Compile Code} {y : Compile β} {inner : Code} (index : Nat)
    (params : List Ident) (h : x c = .ok inner c') :
    (do
      let inner ← attempt x
      closeFunction index params inner
      y) c = y (c'.closed index params inner) := by
  rw [bind_of_ok (attempt_ok h), bind_of_ok (closeFunction_ok c' index params inner)]

theorem closing_error {x : Compile Code} {y : Compile β} {e : CompileError} (index : Nat)
    (params : List Ident) (h : x c = .error e c') :
    (do
      let inner ← attempt x
      closeFunction index params inner
      y) c = .error e { c' with scope := c'.scope.leaveMany params.length } := by
  rw [bind_of_ok (attempt_error h), bind_of_error (closeFunction_error c' index params e)]

theorem unless_used_warn (c : Compilation) (w : CompileWarning) (k : Compile β) :
    (do
      unless c.scope.pop.1 do warn w
      k) { c with scope := c.scope.pop.2 } = k (c.left w) := by
  unfold left
  cases c.scope.pop.1 <;> rfl

end Scoped

section Nodes

variable (n : Ident) (s : Span)

theorem codeOf_number_eq (value : Float) : codeOf (.number value s) = pure (.const value) := rfl

theorem codeOf_call_eq (args : List Expr) :
    codeOf (.call n args s) = (do
      let (target, arity) ← callee n
      if args.length ≠ arity then throw (.arityMismatch n.name arity args.length s)
      let codes ← codesOf args
      callOf target codes) := rfl

theorem codeOf_unary_eq (op : Op) (fixity : Fixity) (operand : Expr) :
    codeOf (.unary op fixity operand s) =
      if fixity = .prefixed ∧ (op = .add ∨ op = .sub) then do
        let code ← codeOf operand
        pure (if op = .sub then .negate code else code)
      else throw (.unsupportedOperator op.symbol
        (if fixity.isInfixed then "infix" else "prefix") s) := by
  have hguard : (fixity ≠ .prefixed ∨ op ≠ .add ∧ op ≠ .sub) ↔
      ¬(fixity = .prefixed ∧ (op = .add ∨ op = .sub)) := by
    rw [Decidable.not_and_iff_or_not, not_or]
  by_cases hop : fixity = .prefixed ∧ (op = .add ∨ op = .sub)
  · rw [if_pos hop]
    exact if_neg fun hg => hguard.1 hg hop
  · rw [if_neg hop]
    exact if_pos (hguard.2 hop)

theorem codeOf_binary_eq (op : Op) (left right : Expr) :
    codeOf (.binary op left right s) = (do
      let l ← codeOf left
      let r ← codeOf right
      pure (.binary op l r)) := rfl

theorem codeOf_binding_eq (bound body : Expr) :
    codeOf (.binding n bound body s) = (do
      let value ← codeOf bound
      openBinding n
      let inner ← attempt (codeOf body)
      let used ← leave
      let inner ← settle inner
      unless used do warn (.unusedBinding n.name n.span)
      pure (.bind value inner)) := rfl

theorem codeOf_function_eq (params : List Ident) (body context : Expr) :
    codeOf (.function n params body context s) = (match repeated? params [] with
      | some p => throw (.duplicateParameter p.name p.span)
      | none => do
        let index ← openFunction n params
        let inner ← attempt (codeOf body)
        closeFunction index params inner
        let outer ← attempt (codeOf context)
        let used ← leave
        let outer ← settle outer
        unless used do warn (.unusedFunction n.name n.span)
        logFunction n.name index
        pure outer) :=
  throw_of_some _ _ _

theorem codeOf_conditional_eq (condition positive negative : Expr) :
    codeOf (.conditional condition positive negative s) = (do
      let c ← codeOf condition
      let p ← codeOf positive
      let n ← codeOf negative
      pure (.branch c p n)) := rfl

theorem codesOf_nil_eq : codesOf [] = pure [] := rfl

theorem codesOf_cons_eq (e : Expr) (es : List Expr) :
    codesOf (e :: es) = (do
      let code ← codeOf e
      let codes ← codesOf es
      pure (code :: codes)) := rfl

end Nodes

end Compilation

end Heightfield
