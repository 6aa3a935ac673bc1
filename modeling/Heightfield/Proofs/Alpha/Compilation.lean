import Heightfield.Proofs.Addressing.Placement
import Heightfield.Proofs.Alpha.Renaming
import Heightfield.Proofs.Compilation.Assembly
import Heightfield.Proofs.Meaning
import Heightfield.Proofs.WellFormed.Verdict

/-! Expressions that differ in their bound names are compiled side by side: to the same code, with
the same function table. What is kept on the way is that the two scopes have the same bindings in
the same order, under names that are paired. -/

namespace Heightfield

open Pairing

/-- Two scopes without marks of use, the same but for the names. -/
inductive Paired : Pairing → Scope → Scope → Prop
  | nil : Paired [] {} {}
  | value {ρ s s'} (n n' : String) (outer : Paired ρ s s') :
      Paired ((n, n') :: ρ) (s.pushValue n) (s'.pushValue n')
  | function {ρ s s'} (n n' : String) (index arity : Nat) (outer : Paired ρ s s') :
      Paired ((n, n') :: ρ) (s.pushFunction n index arity) (s'.pushFunction n' index arity)

namespace Paired

variable {ρ : Pairing} {s s' : Scope} {m m' : String}

theorem depth_eq (h : Paired ρ s s') : s'.depth = s.depth := by
  induction h with
  | nil => rfl
  | value _ _ _ ih => exact congrArg (· + 1) ih
  | function _ _ _ _ _ ih => exact ih

/-- Paired names have the same binding; where they have none they are one name. -/
theorem lookup (h : Paired ρ s s') (hm : ρ.Same m m') :
    (s'.lookup m').1 = (s.lookup m).1 ∧ ((s.lookup m).1 = none → m' = m) := by
  induction h with
  | nil => exact ⟨rfl, fun _ => hm.symm⟩
  | value n n' outer ih =>
    rw [Scope.lookup_pushValue, Scope.lookup_pushValue]
    rcases hm with ⟨rfl, rfl⟩ | ⟨hn, hn', hm⟩
    · rw [if_pos rfl, if_pos rfl, outer.depth_eq]
      exact ⟨rfl, nofun⟩
    · rw [if_neg (Ne.symm hn), if_neg (Ne.symm hn')]
      exact ih hm
  | function n n' index arity outer ih =>
    rw [Scope.lookup_pushFunction, Scope.lookup_pushFunction]
    rcases hm with ⟨rfl, rfl⟩ | ⟨hn, hn', hm⟩
    · rw [if_pos rfl, if_pos rfl, outer.depth_eq]
      exact ⟨rfl, nofun⟩
    · rw [if_neg (Ne.symm hn), if_neg (Ne.symm hn')]
      exact ih hm

theorem pop {p : String × String} (h : Paired (p :: ρ) s s') : Paired ρ s.pop.2 s'.pop.2 := by
  cases h with
  | value _ _ outer => exact outer
  | function _ _ _ _ outer => exact outer

theorem pushValues {ps ps' : List Ident} (h : Paired ρ s s') (hlen : ps'.length = ps.length) :
    Paired (ρ.enter ps ps') (s.pushValues ps) (s'.pushValues ps') := by
  induction ps generalizing ρ s s' ps' with
  | nil =>
    obtain rfl := List.length_eq_zero_iff.1 hlen
    exact h
  | cons p ps ih =>
    obtain ⟨p', ps', rfl⟩ := List.exists_cons_of_length_eq_add_one hlen
    rw [enter_cons]
    exact ih (h.value p.name p'.name) (Nat.succ.inj hlen)

theorem leaveMany {ps ps' : List Ident} (h : Paired (ρ.enter ps ps') s s')
    (hlen : ps'.length = ps.length) :
    Paired ρ (s.leaveMany ps.length) (s'.leaveMany ps'.length) := by
  induction ps generalizing ρ ps' with
  | nil =>
    obtain rfl := List.length_eq_zero_iff.1 hlen
    exact h
  | cons p ps ih =>
    obtain ⟨p', ps', rfl⟩ := List.exists_cons_of_length_eq_add_one hlen
    rw [enter_cons] at h
    exact (ih h (Nat.succ.inj hlen)).pop

end Paired

namespace Compilation

/-- Two compilations at one place of expressions that differ in their bound names. -/
structure Twin (ρ : Pairing) (c d : Compilation) : Prop where
  scope : Paired ρ c.scope.unmarked d.scope.unmarked
  functions : d.functions = c.functions
  random : d.usesRandom = c.usesRandom

section

variable {ρ : Pairing} {c c' c₁ d d₁ : Compilation} {n n' : Ident} {ps ps' : List Ident}

namespace Twin

theorem depth_eq (h : Twin ρ c d) : d.scope.depth = c.scope.depth := h.scope.depth_eq

theorem lookup (h : Twin ρ c d) (hn : ρ.Same n.name n'.name) :
    (d.scope.lookup n'.name).1 = (c.scope.lookup n.name).1 ∧
      ((c.scope.lookup n.name).1 = none → n'.name = n.name) := by
  have hl := h.scope.lookup hn
  rwa [Scope.lookup_unmarked, Scope.lookup_unmarked] at hl

theorem found (h : Twin ρ c d) (m m' : String) :
    Twin ρ { c with scope := (c.scope.lookup m).2 } { d with scope := (d.scope.lookup m').2 } where
  scope := by
    rw [Scope.unmarked_lookup, Scope.unmarked_lookup]
    exact h.scope
  functions := h.functions
  random := h.random

theorem under (h : Twin ρ c d) : Twin ((n.name, n'.name) :: ρ) (c.under n) (d.under n') :=
  ⟨h.scope.value n.name n'.name, h.functions, h.random⟩

theorem inside (h : Twin ρ c d) (hlen : ps'.length = ps.length) :
    Twin (Pairing.enter ((n.name, n'.name) :: ρ) ps ps') (c.inside n ps) (d.inside n' ps') where
  scope := by
    rw [Compilation.inside, Compilation.inside, Scope.unmarked_pushValues,
      Scope.unmarked_pushValues, Scope.unmarked_pushFunction, Scope.unmarked_pushFunction,
      h.functions, hlen]
    exact (h.scope.function n.name n'.name c.functions.size ps.length).pushValues hlen
  functions := congrArg (·.push (.const Binary64.nan)) h.functions
  random := h.random

theorem closed (h : Twin (ρ.enter ps ps') c d) (hlen : ps'.length = ps.length) (index : Nat)
    (inner : Code) : Twin ρ (c.closed index ps inner) (d.closed index ps' inner) where
  scope := by
    rw [Compilation.closed, Compilation.closed, Scope.unmarked_leaveMany, Scope.unmarked_leaveMany]
    exact h.scope.leaveMany hlen
  functions := congrArg (·.setIfInBounds index inner) h.functions
  random := h.random

theorem logged (h : Twin ρ c d) (name name' : String) (index index' : Nat) :
    Twin ρ (c.logged name index) (d.logged name' index') :=
  ⟨h.scope, h.functions, h.random⟩

/-- Behind a binder, whatever is reported of it. -/
theorem left {p : String × String} (h : Twin (p :: ρ) c d) (w w' : CompileWarning) :
    Twin ρ (c.left w) (d.left w') where
  scope := by
    rw [Compilation.left, Compilation.left, Scope.unmarked_pop, Scope.unmarked_pop]
    exact h.scope.pop
  functions := h.functions
  random := h.random

theorem reference {code : Code} (h : Twin ρ c d) (hn : ρ.Same n.name n'.name)
    (hc : reference n c = .ok code c') :
    ∃ d', Compilation.reference n' d = .ok code d' ∧ Twin ρ c' d' := by
  obtain ⟨hl, hfree⟩ := h.lookup hn
  have hfound := h.found n.name n'.name
  obtain ⟨rfl, ⟨slot, hslot, rfl⟩ | ⟨hnone, hrest⟩⟩ := reference_ok hc
  · rw [Scope.hopsTo, ← h.depth_eq]
    exact ⟨_, reference_value (hl.trans hslot), hfound⟩
  -- A name bound in neither scope is the same name, so it stands for the same builtin.
  · rw [← hfree hnone] at hrest
    obtain ⟨p, hp, rfl⟩ | ⟨hp, v, hv, rfl⟩ := hrest
    · exact ⟨_, reference_coordinate (hl.trans hnone) hp, hfound⟩
    · exact ⟨_, reference_constant (hl.trans hnone) hp hv, hfound⟩

theorem callee {target : Callee} {arity : Nat} (h : Twin ρ c d) (hn : ρ.Same n.name n'.name)
    (hc : callee n c = .ok (target, arity) c') :
    ∃ d', Compilation.callee n' d = .ok (target, arity) d' ∧ Twin ρ c' d' := by
  obtain ⟨hl, hfree⟩ := h.lookup hn
  have hfound := h.found n.name n'.name
  obtain ⟨rfl, ⟨index, depth, hindex, rfl⟩ | ⟨hnone, hrest⟩⟩ := callee_ok hc
  · rw [← h.depth_eq]
    exact ⟨_, callee_function (hl.trans hindex), hfound⟩
  · rw [← hfree hnone] at hrest
    obtain ⟨hp, ⟨f, hf, rfl, rfl⟩ | ⟨hr, rfl, rfl⟩⟩ := hrest
    · exact ⟨_, callee_math (hl.trans hnone) hp hf, hfound⟩
    · exact ⟨_, callee_random (hl.trans hnone) hp hr, hfound⟩

theorem callOf {target : Callee} {codes : List Code} {code : Code} (h : Twin ρ c d)
    (hc : callOf target codes c = .ok code c') :
    ∃ d', Compilation.callOf target codes d = .ok code d' ∧ Twin ρ c' d' := by
  cases target with
  | function index hops =>
    cases hc
    exact ⟨d, rfl, h⟩
  | math f =>
    cases hc
    exact ⟨d, rfl, h⟩
  | random =>
    cases hc
    exact ⟨_, rfl, h.scope, h.functions, rfl⟩

end Twin

end

mutual

theorem codeOf_alpha : ∀ {e e' : Expr} {ρ : Pairing} {c c' d : Compilation} {code : Code},
    Alpha ρ e e' → Twin ρ c d → codeOf e c = .ok code c' →
      ∃ d', codeOf e' d = .ok code d' ∧ Twin ρ c' d'
  | _, _, _, c, _, d, _, .number, ht, h => by
    obtain ⟨rfl, rfl⟩ := number_ok h
    exact ⟨d, rfl, ht⟩
  | _, _, _, _, _, _, _, .reference same, ht, h => ht.reference same h
  | _, _, _, _, _, _, _, .call same parts, ht, h => by
    obtain ⟨target, c₁, codes, c₂, hcallee, hargs, hcall⟩ := call_ok h
    obtain ⟨d₁, hcallee', ht₁⟩ := ht.callee same hcallee
    obtain ⟨d₂, hargs', ht₂⟩ := codesOf_alpha parts ht₁ hargs
    obtain ⟨d', hcall', ht'⟩ := ht₂.callOf hcall
    rw [← parts.length_eq] at hcallee'
    exact ⟨d', codeOf_call hcallee' hargs' hcall', ht'⟩
  | _, _, _, _, _, _, _, .unary part, ht, h => by
    obtain ⟨rfl, hop, inner, hinner, rfl⟩ := unary_ok h
    obtain ⟨d', hinner', ht'⟩ := codeOf_alpha part ht hinner
    exact ⟨d', codeOf_unary hop hinner', ht'⟩
  | _, _, _, _, _, _, _, .binary first second, ht, h => by
    obtain ⟨l, c₁, r, hl, hr, rfl⟩ := binary_ok h
    obtain ⟨d₁, hl', ht₁⟩ := codeOf_alpha first ht hl
    obtain ⟨d', hr', ht'⟩ := codeOf_alpha second ht₁ hr
    exact ⟨d', codeOf_binary hl' hr', ht'⟩
  | _, _, _, _, _, _, _, .binding first second, ht, h => by
    obtain ⟨value, c₁, inner, c₂, hbound, hbody, rfl, rfl⟩ := binding_ok h
    obtain ⟨d₁, hbound', ht₁⟩ := codeOf_alpha first ht hbound
    obtain ⟨d₂, hbody', ht₂⟩ := codeOf_alpha second ht₁.under hbody
    exact ⟨_, codeOf_binding hbound' hbody', ht₂.left _ _⟩
  | _, _, _, _, _, _, _, .function length distinct first second, ht, h => by
    obtain ⟨hparams, inner, c₁, c₂, hbody, hcontext, rfl⟩ := function_ok h
    have hparams' := repeated?_eq_none.2 (distinct.2 (repeated?_eq_none.1 hparams))
    obtain ⟨d₁, hbody', ht₁⟩ := codeOf_alpha first (ht.inside length) hbody
    obtain ⟨d₂, hcontext', ht₂⟩ := codeOf_alpha second (ht₁.closed length _ inner) hcontext
    rw [← ht.functions] at hcontext'
    exact ⟨_, codeOf_function hparams' hbody' hcontext', (ht₂.left _ _).logged _ _ _ _⟩
  | _, _, _, _, _, _, _, .conditional first second third, ht, h => by
    obtain ⟨test, c₁, yes, c₂, no, htest, hyes, hno, rfl⟩ := conditional_ok h
    obtain ⟨d₁, htest', ht₁⟩ := codeOf_alpha first ht htest
    obtain ⟨d₂, hyes', ht₂⟩ := codeOf_alpha second ht₁ hyes
    obtain ⟨d', hno', ht'⟩ := codeOf_alpha third ht₂ hno
    exact ⟨d', codeOf_conditional htest' hyes' hno', ht'⟩

theorem codesOf_alpha : ∀ {es es' : List Expr} {ρ : Pairing} {c c' d : Compilation}
    {codes : List Code}, AlphaAll ρ es es' → Twin ρ c d → codesOf es c = .ok codes c' →
      ∃ d', codesOf es' d = .ok codes d' ∧ Twin ρ c' d'
  | _, _, _, _, _, d, _, .nil, ht, h => by
    obtain ⟨rfl, rfl⟩ := codesOf_nil_ok h
    exact ⟨d, rfl, ht⟩
  | _, _, _, _, _, _, _, .cons first rest, ht, h => by
    obtain ⟨code, c₁, codes, hfirst, hothers, rfl⟩ := codesOf_cons_ok h
    obtain ⟨d₁, hfirst', ht₁⟩ := codeOf_alpha first ht hfirst
    obtain ⟨d', hothers', ht'⟩ := codesOf_alpha rest ht₁ hothers
    exact ⟨d', codesOf_cons hfirst' hothers', ht'⟩

end

end Compilation

/-- Expressions that differ in bound names and spans have the same program. -/
theorem Alpha.compile {e e' : Expr} (halpha : Alpha [] e e') {evaluator : Evaluator}
    (h : e.compile = .ok evaluator) : ∃ evaluator', e'.compile = .ok evaluator' ∧
      evaluator'.program = evaluator.program ∧ evaluator'.usesRandom = evaluator.usesRandom := by
  obtain ⟨root, c, hc, rfl⟩ := Expr.compile_eq_ok.1 h
  have hstart : Compilation.Twin [] {} {} := ⟨.nil, rfl, rfl⟩
  obtain ⟨d, hd, ht⟩ := Compilation.codeOf_alpha halpha hstart hc
  exact ⟨d.finish root, Expr.compile_eq_ok.2 ⟨root, d, hd, rfl⟩,
    congrArg (Program.mk root) ht.functions, ht.random⟩

/-- What an evaluator does depends on its program alone. -/
theorem Evaluator.eval_of_program {evaluator evaluator' : Evaluator}
    (h : evaluator'.program = evaluator.program) (draws : Draws) (point : Point) :
    evaluator'.eval draws point = evaluator.eval draws point ∧
      ∀ v, evaluator'.Returns draws point v ↔ evaluator.Returns draws point v := by
  refine ⟨congrArg (·.eval draws point) h, fun v => ?_⟩
  unfold Evaluator.Returns
  rw [h]

/-- Bound names do not matter: with one binder under a name that stood nowhere in the tree, and with
all that refers to the binder, the tree is compiled to the same program. The name may well be that
of a coordinate or of a builtin. -/
theorem compile_rename {C : Context} {node node' : Expr} {z : String} {evaluator : Evaluator}
    (h : (C.fill node).compile = .ok evaluator) (hnode : node.Rebinds z node')
    (hz : z ∉ (C.fill node).names) :
    ∃ evaluator', (C.fill node').compile = .ok evaluator' ∧
      evaluator'.program = evaluator.program ∧
      evaluator'.functionCount = evaluator.functionCount ∧
      evaluator'.isDeterministic = evaluator.isDeterministic ∧
      ∀ draws point, evaluator'.eval draws point = evaluator.eval draws point ∧
        ∀ v, evaluator'.Returns draws point v ↔ evaluator.Returns draws point v := by
  obtain ⟨names, hnames, -⟩ := ((Expr.compile_isOk_iff _).1 ⟨_, h⟩).fill
  have hnode' : z ∉ node.names := fun hm => hz (Expr.names_subset_fill C node hm)
  have halpha : Alpha [] (C.fill node) (C.fill node') :=
    Alpha.fill C (fun _ => rfl) (hnode.alpha hnode' hnames)
  obtain ⟨evaluator', h', hprogram, hrandom⟩ := halpha.compile h
  exact ⟨evaluator', h', hprogram, congrArg (·.functions.size) hprogram, congrArg (!·) hrandom,
    Evaluator.eval_of_program hprogram⟩

/-- `let f(p) = -p in f(f(t))`, for any name of the parameter. -/
def negatedTwice (parameter : String) : Expr :=
  let name (text : String) : Ident := ⟨text, ⟨0, 0⟩⟩
  let sp : Span := ⟨0, 0⟩
  .function (name "f") [name parameter]
    (.unary .sub .prefixed (.reference (name parameter) sp) sp)
    (.call (name "f") [.call (name "f") [.reference (name "t") sp] sp] sp) sp

/-- A parameter that hides its function, in `x + (let f(f) = -f in f(f(t)))`. -/
theorem negatedTwice_renames :
    let around : Context := [.right .add (.reference ⟨"x", ⟨0, 0⟩⟩ ⟨0, 0⟩) ⟨0, 0⟩]
    ∃ evaluator evaluator', (around.fill (negatedTwice "f")).compile = .ok evaluator ∧
      (negatedTwice "f").Rebinds "a" (negatedTwice "a") ∧
      "a" ∉ (around.fill (negatedTwice "f")).names ∧
      (around.fill (negatedTwice "a")).compile = .ok evaluator' ∧
      ∀ draws point v, evaluator'.Returns draws point v ↔ evaluator.Returns draws point v := by
  intro around
  have hnode : (negatedTwice "f").Rebinds "a" (negatedTwice "a") :=
    @Expr.Rebinds.parameter "a" ⟨"f", ⟨0, 0⟩⟩ [] ⟨"f", ⟨0, 0⟩⟩ [] _ _ _
  have hz : "a" ∉ (around.fill (negatedTwice "f")).names := by decide
  obtain ⟨evaluator, h⟩ : ∃ evaluator, (around.fill (negatedTwice "f")).compile = .ok evaluator :=
    ⟨_, rfl⟩
  obtain ⟨evaluator', h', -, -, -, hreturns⟩ := compile_rename h hnode hz
  exact ⟨evaluator, evaluator', h, hnode, hz, h', fun draws point => (hreturns draws point).2⟩

end Heightfield
