import Heightfield.Proofs.Addressing.Placement
import Heightfield.Proofs.Expr.Names
import Heightfield.Proofs.Meaning
import Heightfield.Proofs.Termination

/-! Where a compilation notes that numbers are drawn: at a call of `rand` that no binder around it
takes, whether or not it is ever run. -/

namespace Heightfield

theorem Builtin.lookup?_random_iff {name : String} :
    Builtin.lookup? name = some .random ↔ name = "rand" := by
  constructor
  · intro h
    have hm := Builtin.mem_table_of_lookup? h
    simpa [Builtin.table] using hm
  · rintro rfl
    rfl

namespace Scope

/-- Of these calls, taken from an expression in the scope, one is of the builtin `rand`. -/
def Draws (s : Scope) (calls : List String) : Prop :=
  "rand" ∈ calls ∧ (s.lookup "rand").1 = none

variable {s : Scope} {calls others : List String}

theorem draws_nil : ¬ s.Draws [] := fun h => List.not_mem_nil h.1

theorem draws_append : s.Draws (calls ++ others) ↔ s.Draws calls ∨ s.Draws others := by
  unfold Draws
  rw [List.mem_append, or_and_right]

theorem draws_cons {name : String} :
    s.Draws (name :: calls) ↔ name = "rand" ∧ (s.lookup name).1 = none ∨ s.Draws calls := by
  unfold Draws
  rw [List.mem_cons, or_and_right]
  refine or_congr_left ⟨?_, ?_⟩
  · rintro ⟨rfl, h⟩
    exact ⟨rfl, h⟩
  · rintro ⟨rfl, h⟩
    exact ⟨rfl, h⟩

/-- Marks of use do not matter. -/
theorem draws_congr {s' : Scope} (h : s'.unmarked = s.unmarked) :
    s'.Draws calls ↔ s.Draws calls := by
  unfold Draws
  rw [← lookup_unmarked s', h, lookup_unmarked]

theorem draws_pushValue (n : String) :
    (s.pushValue n).Draws calls ↔ s.Draws (calls.filter (· ≠ n)) := by
  unfold Draws
  rw [lookup_pushValue, List.mem_filter, decide_eq_true_eq]
  by_cases hn : n = "rand"
  · simp [hn]
  · rw [if_neg hn, and_iff_left (Ne.symm hn)]

theorem draws_pushFunction (n : String) (index arity : Nat) :
    (s.pushFunction n index arity).Draws calls ↔ s.Draws (calls.filter (· ≠ n)) := by
  unfold Draws
  rw [lookup_pushFunction, List.mem_filter, decide_eq_true_eq]
  by_cases hn : n = "rand"
  · simp [hn]
  · rw [if_neg hn, and_iff_left (Ne.symm hn)]

theorem draws_pushValues (ps : List Ident) :
    (s.pushValues ps).Draws calls ↔ s.Draws (calls.filter (· ∉ ps.map (·.name))) := by
  induction ps generalizing s with
  | nil => rw [Expr.filter_params_nil, pushValues, List.foldl_nil]
  | cons p ps ih =>
    have h : (s.pushValues (p :: ps)).Draws calls ↔
        (s.pushValue p.name).Draws (calls.filter (· ∉ ps.map (·.name))) := ih
    rw [h, draws_pushValue, Expr.filter_params_cons]

end Scope

namespace Compilation

/-- A call notes draws if it is of `rand`. -/
theorem call_random {n : Ident} {arity : Nat} {target : Callee} {codes : List Code} {code : Code}
    {c c₁ c₂ c' : Compilation} (hcallee : callee n c = .ok (target, arity) c₁)
    (hcall : callOf target codes c₂ = .ok code c') :
    c'.usesRandom = true ↔
      c₂.usesRandom = true ∨ n.name = "rand" ∧ (c.scope.lookup n.name).1 = none := by
  obtain ⟨-, ⟨index, depth, hl, rfl⟩ | ⟨hl, -, ⟨f, hf, rfl, -⟩ | ⟨hr, rfl, -⟩⟩⟩ := callee_ok hcallee
  · cases hcall
    simp [hl]
  · cases hcall
    have hne : n.name ≠ "rand" := fun hn => by
      rw [Builtin.lookup?_random_iff.2 hn] at hf
      cases hf
    simp [hne]
  · cases hcall
    exact iff_of_true rfl (.inr ⟨Builtin.lookup?_random_iff.1 hr, hl⟩)

mutual

theorem codeOf_random : ∀ (e : Expr) {c c' : Compilation} {code : Code},
    codeOf e c = .ok code c' →
      (c'.usesRandom = true ↔ c.usesRandom = true ∨ c.scope.Draws e.outerCalls)
  | .number _ _, _, _, _, h => by
    obtain ⟨-, rfl⟩ := number_ok h
    exact (or_iff_left Scope.draws_nil).symm
  | .reference n _, _, _, _, h => by
    obtain ⟨rfl, -⟩ := reference_ok h
    exact (or_iff_left Scope.draws_nil).symm
  | .call n args _, c, _, _, h => by
    obtain ⟨target, c₁, codes, c₂, hcallee, hargs, hcall⟩ := call_ok h
    have hx := (callee_extends hcallee).scope
    obtain ⟨rfl, -⟩ := callee_ok hcallee
    rw [call_random hcallee hcall, codesOf_random args hargs, Scope.draws_congr hx,
      Expr.outerCalls, Scope.draws_cons, or_assoc, or_comm (a := c.scope.Draws _)]
  | .unary _ _ operand _, _, _, _, h => by
    obtain ⟨-, -, inner, hinner, -⟩ := unary_ok h
    exact codeOf_random operand hinner
  | .binary _ left right _, _, _, _, h => by
    obtain ⟨l, c₁, r, hl, hr, -⟩ := binary_ok h
    rw [codeOf_random right hr, codeOf_random left hl,
      Scope.draws_congr (codeOf_extends left hl).scope, Expr.outerCalls, Scope.draws_append,
      or_assoc]
  | .binding n bound body _, c, _, _, h => by
    obtain ⟨value, c₁, inner, c₂, hbound, hbody, -, rfl⟩ := binding_ok h
    have ih : c₂.usesRandom = true ↔
        c₁.usesRandom = true ∨ (c₁.scope.pushValue n.name).Draws body.outerCalls :=
      codeOf_random body hbody
    rw [left, ih, codeOf_random bound hbound, Scope.draws_pushValue,
      Scope.draws_congr (codeOf_extends bound hbound).scope, Expr.outerCalls, Scope.draws_append,
      or_assoc]
  | .function n params body context _, c, _, _, h => by
    obtain ⟨-, inner, c₁, c₂, hbody, hcontext, rfl⟩ := function_ok h
    have hclosed := (codeOf_extends body hbody).scope_closed c.functions.size inner
    have ih : c₁.usesRandom = true ↔ c.usesRandom = true ∨ ((c.scope.pushFunction n.name
        c.functions.size params.length).pushValues params).Draws body.outerCalls :=
      codeOf_random body hbody
    -- the context is compiled where the body has left marks of use, which do not matter
    have hclosed' : (c₁.closed c.functions.size params inner).scope.Draws context.outerCalls ↔
        (c.scope.pushFunction n.name c.functions.size params.length).Draws context.outerCalls :=
      Scope.draws_congr hclosed
    have ih₂ := codeOf_random context hcontext
    have hrandom : (c₁.closed c.functions.size params inner).usesRandom = c₁.usesRandom := rfl
    rw [logged, left, ih₂, hrandom, ih, hclosed', Scope.draws_pushValues, or_assoc, ← Scope.draws_append,
      Scope.draws_pushFunction, Expr.outerCalls]
  | .conditional condition positive negative _, _, _, _, h => by
    obtain ⟨test, c₁, yes, c₂, no, htest, hyes, hno, -⟩ := conditional_ok h
    have hx := (codeOf_extends condition htest).scope
    have hx₂ := (codeOf_extends positive hyes).scope
    rw [codeOf_random negative hno, codeOf_random positive hyes, codeOf_random condition htest,
      Scope.draws_congr (hx₂.trans hx), Scope.draws_congr hx, Expr.outerCalls, Scope.draws_append,
      Scope.draws_append, or_assoc, or_assoc, or_assoc]

theorem codesOf_random : ∀ (es : List Expr) {c c' : Compilation} {codes : List Code},
    codesOf es c = .ok codes c' →
      (c'.usesRandom = true ↔ c.usesRandom = true ∨ c.scope.Draws (Expr.outerCallsAll es))
  | [], _, _, _, h => by
    obtain ⟨-, rfl⟩ := codesOf_nil_ok h
    exact (or_iff_left Scope.draws_nil).symm
  | e :: es, _, _, _, h => by
    obtain ⟨first, c₁, others, hfirst, hothers, -⟩ := codesOf_cons_ok h
    rw [codesOf_random es hothers, codeOf_random e hfirst,
      Scope.draws_congr (codeOf_extends e hfirst).scope, Expr.outerCallsAll, Scope.draws_append,
      or_assoc]

end

end Compilation

/-- Compiled alone, a tree is deterministic unless it calls `rand` under no binder of that name. -/
theorem Expr.isDeterministic_iff {e : Expr} {evaluator : Evaluator}
    (h : e.compile = .ok evaluator) :
    evaluator.isDeterministic = true ↔ "rand" ∉ e.outerCalls := by
  obtain ⟨root, c, hc, rfl⟩ := Expr.compile_eq_ok.1 h
  have hempty : Scope.Draws {} e.outerCalls ↔ "rand" ∈ e.outerCalls := and_iff_left rfl
  have hrandom : c.usesRandom = true ↔ "rand" ∈ e.outerCalls := by
    rw [Compilation.codeOf_random e hc]
    exact (or_iff_right Bool.false_ne_true).trans hempty
  have hnot : (c.finish root).isDeterministic = !c.usesRandom := rfl
  rw [hnot, Bool.not_eq_true', ← Bool.not_eq_true, hrandom]

end Heightfield
