import Heightfield.Proofs.Compilation.Random
import Heightfield.Proofs.Expr.Occurrence
import Heightfield.Proofs.Meaning.Preservation
import Heightfield.Proofs.Unused.Evaluation
import Heightfield.Proofs.Unused.Report
import Heightfield.Proofs.WellFormed.Context
import Heightfield.Proofs.WellFormed.Free
import Heightfield.Proofs.WellFormed.Verdict

/-! A tree without a binder that it was reported not to use. It still compiles, to a program of its
own, and wherever the one program has a value the other has the same. -/

namespace Heightfield

variable {C : Context} {e e' : Expr} {evaluator : Evaluator}

/-- A part gives way to another that is well-formed wherever it is, and calls no more than it. -/
theorem Expr.compile_replaced (h : (C.fill e).compile = .ok evaluator)
    (hd : evaluator.isDeterministic = true)
    (hwf : ∀ names, WellFormed names e → WellFormed names e')
    (hcalls : "rand" ∈ e'.outerCalls → "rand" ∈ e.outerCalls) :
    ∃ evaluator', (C.fill e').compile = .ok evaluator' ∧ evaluator'.isDeterministic = true := by
  obtain ⟨names, he, hfill⟩ := ((Expr.compile_isOk_iff _).1 ⟨_, h⟩).fill
  obtain ⟨evaluator', h'⟩ := (Expr.compile_isOk_iff _).2 (hfill e' (hwf names he))
  refine ⟨evaluator', h', (Expr.isDeterministic_iff h').2 fun hrand => ?_⟩
  exact (Expr.isDeterministic_iff h).1 hd (Expr.mem_outerCalls_fill hcalls C hrand)

/-- What is akin to a deterministic tree has its values. -/
theorem Akin.returns {evaluator' : Evaluator} (hakin : Akin e e') (h : e.compile = .ok evaluator)
    (hd : evaluator.isDeterministic = true) (h' : e'.compile = .ok evaluator')
    (hd' : evaluator'.isDeterministic = true) {draws draws' : Draws} {point : Point} {v : Float}
    (hv : evaluator.Returns draws point v) : evaluator'.Returns draws' point v := by
  obtain ⟨depth, hv⟩ := hv
  obtain ⟨w, hw, heval⟩ | hw := Expr.evalWithin_yields h hd draws point depth
  · cases hv.symm.trans hw
    obtain ⟨depth', hv'⟩ := Expr.evalWithin_of_eval h' hd' draws' (heval.akin hakin .empty)
    exact ⟨depth', hv' depth' (Nat.le_refl depth')⟩
  · cases hv.symm.trans hw

/-- A warning of an unused name can be acted on. Without a binding that raised one, a deterministic
tree compiles and has all the values it had; without a function that raised one, it has these values
and no others. -/
theorem compile_without_unused (h : e.compile = .ok evaluator)
    (hd : evaluator.isDeterministic = true) :
    (∀ C n bound body sp, e = C.fill (.binding n bound body sp) →
      Raises e C (.unusedBinding n.name n.span) →
        ∃ evaluator', (C.fill body).compile = .ok evaluator' ∧
          evaluator'.isDeterministic = true ∧ ∀ draws draws' point v,
            evaluator.Returns draws point v → evaluator'.Returns draws' point v) ∧
    ∀ C n params body context sp, e = C.fill (.function n params body context sp) →
      Raises e C (.unusedFunction n.name n.span) →
        ∃ evaluator', (C.fill context).compile = .ok evaluator' ∧
          evaluator'.isDeterministic = true ∧ ∀ draws draws' point v,
            evaluator.Returns draws point v ↔ evaluator'.Returns draws' point v := by
  constructor
  · rintro C n bound body sp rfl hraises
    obtain ⟨-, hn⟩ := (raises_binding h).1 hraises
    have hwf : ∀ names, WellFormed names (.binding n bound body sp) → WellFormed names body := by
      intro names hwf
      cases hwf with
      | binding first second => exact second.without hn
    have hcalls : "rand" ∈ body.outerCalls → "rand" ∈ (Expr.binding n bound body sp).outerCalls :=
      fun hrand => Expr.mem_outerCalls_binding.2 (.inr ⟨hrand, fun heq =>
        hn (heq ▸ Expr.mem_freeNames_of_outerCalls hrand)⟩)
    obtain ⟨evaluator', h', hd'⟩ := Expr.compile_replaced h hd hwf hcalls
    have hakin : Akin (C.fill (.binding n bound body sp)) (C.fill body) :=
      (Akin.node (.lessValue hn (Akin.refl body))).fill C
    exact ⟨evaluator', h', hd', fun _ _ _ _ => hakin.returns h hd h' hd'⟩
  · rintro C n params body context sp rfl hraises
    obtain ⟨-, hn⟩ := (raises_function h).1 hraises
    rw [List.mem_append, not_or] at hn
    have hwf : ∀ names, WellFormed names (.function n params body context sp) →
        WellFormed names context := by
      intro names hwf
      cases hwf with
      | function distinct first second => exact second.without hn.2
    have hcalls : "rand" ∈ context.outerCalls →
        "rand" ∈ (Expr.function n params body context sp).outerCalls :=
      fun hrand => Expr.mem_outerCalls_function.2 ⟨.inr hrand, fun heq =>
        hn.2 (heq ▸ Expr.mem_freeNames_of_outerCalls hrand)⟩
    obtain ⟨evaluator', h', hd'⟩ := Expr.compile_replaced h hd hwf hcalls
    have hless : Akin (C.fill (.function n params body context sp)) (C.fill context) :=
      (Akin.node (.lessFunction hn.2 (Akin.refl context))).fill C
    have hmore : Akin (C.fill context) (C.fill (.function n params body context sp)) :=
      (Akin.more hn.2 (Akin.refl context)).fill C
    exact ⟨evaluator', h', hd', fun _ _ _ _ =>
      ⟨hless.returns h hd h' hd', hmore.returns h' hd' h hd⟩⟩

/-- `let f(a) = a + m in m`, under a binding of `m`. -/
def idleFunction : Expr :=
  let name (text : String) : Ident := ⟨text, ⟨0, 0⟩⟩
  let sp : Span := ⟨0, 0⟩
  .function (name "f") [name "a"]
    (.binary .add (.reference (name "a") sp) (.reference (name "m") sp) sp)
    (.reference (name "m") sp) sp

/-- `let m = x in let f(a) = a + m in m` -/
def idleBody : Expr :=
  .binding ⟨"m", ⟨0, 0⟩⟩ (.reference ⟨"x", ⟨0, 0⟩⟩ ⟨0, 0⟩) idleFunction ⟨0, 0⟩

/-- `let n = t in let m = x in let f(a) = a + m in m`, without `n` and without `f`. -/
theorem idleNames_removed :
    let root : Expr :=
      .binding ⟨"n", ⟨0, 0⟩⟩ (.reference ⟨"t", ⟨0, 0⟩⟩ ⟨0, 0⟩) idleBody ⟨0, 0⟩
    let around : Context := [.body ⟨"n", ⟨0, 0⟩⟩ (.reference ⟨"t", ⟨0, 0⟩⟩ ⟨0, 0⟩) ⟨0, 0⟩,
      .body ⟨"m", ⟨0, 0⟩⟩ (.reference ⟨"x", ⟨0, 0⟩⟩ ⟨0, 0⟩) ⟨0, 0⟩]
    ∃ evaluator, root.compile = .ok evaluator ∧ evaluator.isDeterministic = true ∧
      Raises root [] (.unusedBinding "n" ⟨0, 0⟩) ∧ Raises root around (.unusedFunction "f" ⟨0, 0⟩) ∧
      (∃ evaluator', idleBody.compile = .ok evaluator' ∧ ∀ draws draws' point v,
        evaluator.Returns draws point v → evaluator'.Returns draws' point v) ∧
      ∃ evaluator', (around.fill (.reference ⟨"m", ⟨0, 0⟩⟩ ⟨0, 0⟩)).compile = .ok evaluator' ∧
        ∀ draws draws' point v,
          evaluator.Returns draws point v ↔ evaluator'.Returns draws' point v := by
  intro root around
  have hn : Raises root [] (.unusedBinding "n" ⟨0, 0⟩) :=
    (@raises_binding [] _ _ _ _ _ _ rfl).2 ⟨rfl, by decide⟩
  have hf : Raises root around (.unusedFunction "f" ⟨0, 0⟩) :=
    (@raises_function around _ _ _ _ _ _ _ rfl).2 ⟨rfl, by decide⟩
  obtain ⟨hvalue, hfunction⟩ := @compile_without_unused root _ rfl rfl
  obtain ⟨evaluator₁, h₁, -, hreturns₁⟩ := hvalue [] _ _ _ _ rfl hn
  obtain ⟨evaluator₂, h₂, -, hreturns₂⟩ := hfunction around _ _ _ _ _ rfl hf
  exact ⟨_, rfl, rfl, hn, hf, ⟨evaluator₁, h₁, hreturns₁⟩, evaluator₂, h₂, hreturns₂⟩

end Heightfield
