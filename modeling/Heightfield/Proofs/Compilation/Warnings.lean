import Heightfield.Proofs.Compilation.Usage
import Heightfield.Proofs.Expr.Idents
import Heightfield.Proofs.WellFormed.Verdict
import Mathlib.Data.List.Nodup

/-! Which warnings a tree is compiled with: one wherever a binder hides something, and one for each
binder that nothing uses, in the order in which the compilation passes them. -/

namespace Heightfield

open Compilation

namespace Expr

mutual

/-- A name is told to be unused behind the part where it could be. -/
def warnings : Expr → List CompileWarning
  | number _ _ | reference _ _ => []
  | call _ args _ => warningsAll args
  | unary _ _ operand _ => operand.warnings
  | binary _ left right _ => left.warnings ++ right.warnings
  | binding n bound body _ =>
    bound.warnings ++ shadowing n ++ body.warnings ++
      if n.name ∈ body.freeNames then [] else [.unusedBinding n.name n.span]
  | function n params body context _ =>
    shadowing n ++ params.flatMap shadowing ++ body.warnings ++
      (params.filter (·.name ∉ body.freeNames)).map (fun p => .unusedParameter p.name p.span) ++
      context.warnings ++
      if n.name ∈ body.freeNames.filter (· ∉ params.map (·.name)) ++ context.freeNames then []
      else [.unusedFunction n.name n.span]
  | conditional condition positive negative _ =>
    condition.warnings ++ positive.warnings ++ negative.warnings

def warningsAll : List Expr → List CompileWarning
  | [] => []
  | e :: es => e.warnings ++ warningsAll es

end

end Expr

namespace Compilation

/-- Of distinct parameters, those are unused that the body does not name. -/
theorem unusedParams_lookupAll {ps : List Ident} (h : (ps.map (·.name)).Nodup) (s : Scope)
    (names : List String) : unusedParams ps ((s.pushValues ps).lookupAll names) =
      ps.filter (·.name ∉ names) := by
  induction ps generalizing s with
  | nil => rfl
  | cons p ps ih =>
    obtain ⟨hp, hps⟩ := List.nodup_cons.1 h
    have hpush : s.pushValues (p :: ps) = (s.pushValue p.name).pushValues ps := rfl
    have hused : p.name ∈ names.filter (· ∉ ps.map (·.name)) ↔ p.name ∈ names := by
      rw [List.mem_filter]
      exact and_iff_left (decide_eq_true hp)
    rw [hpush, unusedParams, Scope.leaveMany_lookupAll, Scope.pop_lookupAll_pushValue, ih hps,
      List.filter_cons]
    simp only [decide_eq_true_eq, hused]
    by_cases hname : p.name ∈ names <;> simp [hname]

theorem callOf_warnings {target : Callee} {codes : List Code} {c c' : Compilation} {code : Code}
    (h : callOf target codes c = .ok code c') : c'.warnings = c.warnings := by
  cases target <;> cases h <;> rfl

theorem left_warnings (c : Compilation) (w : CompileWarning) {used : Prop} [Decidable used]
    (h : c.scope.pop.1 = decide used) :
    (c.left w).warnings = c.warnings ++ if used then [] else [w] := by
  unfold left
  rw [h]
  by_cases hused : used <;> simp [hused]

mutual

theorem codeOf_warnings : ∀ (e : Expr) {c c' : Compilation} {code : Code},
    codeOf e c = .ok code c' → c'.warnings = c.warnings ++ e.warnings
  | .number _ _, c, _, _, h => by
    obtain ⟨-, rfl⟩ := number_ok h
    exact (List.append_nil _).symm
  | .reference n _, c, _, _, h => by
    obtain ⟨rfl, -⟩ := reference_ok h
    exact (List.append_nil _).symm
  | .call n args _, c, _, _, h => by
    obtain ⟨target, c₁, codes, c₂, hcallee, hargs, hcall⟩ := call_ok h
    obtain ⟨rfl, -⟩ := callee_ok hcallee
    rw [callOf_warnings hcall, codesOf_warnings args hargs]
    rfl
  | .unary _ _ operand _, _, _, _, h => by
    obtain ⟨-, -, inner, hinner, -⟩ := unary_ok h
    exact codeOf_warnings operand hinner
  | .binary _ left right _, _, _, _, h => by
    obtain ⟨l, c₁, r, hl, hr, -⟩ := binary_ok h
    rw [codeOf_warnings right hr, codeOf_warnings left hl, List.append_assoc]
    rfl
  | .binding n bound body _, c, _, _, h => by
    obtain ⟨value, c₁, inner, c₂, hbound, hbody, -, rfl⟩ := binding_ok h
    rw [left_warnings c₂ _ (used_under hbody), codeOf_warnings body hbody, under,
      codeOf_warnings bound hbound]
    simp only [Expr.warnings, List.append_assoc]
  | .function n params body context _, c, _, _, h => by
    obtain ⟨hparams, inner, c₁, c₂, hbody, hcontext, rfl⟩ := function_ok h
    have hscope : c₁.scope = (c.inside n params).scope.lookupAll body.freeNames :=
      codeOf_scope body hbody
    rw [logged, left_warnings c₂ _ (used_closed hbody hcontext), codeOf_warnings context hcontext,
      closed, hscope, codeOf_warnings body hbody, inside,
      unusedParams_lookupAll (repeated?_eq_none.1 hparams)]
    simp only [Expr.warnings, List.append_assoc]
  | .conditional condition positive negative _, _, _, _, h => by
    obtain ⟨test, c₁, yes, c₂, no, htest, hyes, hno, -⟩ := conditional_ok h
    rw [codeOf_warnings negative hno, codeOf_warnings positive hyes,
      codeOf_warnings condition htest]
    simp only [Expr.warnings, List.append_assoc]

theorem codesOf_warnings : ∀ (es : List Expr) {c c' : Compilation} {codes : List Code},
    codesOf es c = .ok codes c' → c'.warnings = c.warnings ++ Expr.warningsAll es
  | [], _, _, _, h => by
    obtain ⟨-, rfl⟩ := codesOf_nil_ok h
    exact (List.append_nil _).symm
  | e :: es, _, _, _, h => by
    obtain ⟨first, c₁, others, hfirst, hothers, -⟩ := codesOf_cons_ok h
    rw [codesOf_warnings es hothers, codeOf_warnings e hfirst, List.append_assoc]
    rfl

end

end Compilation

/-- A compiled tree comes with its warnings, in their order. -/
theorem Expr.compile_warnings {e : Expr} {evaluator : Evaluator}
    (h : e.compile = .ok evaluator) : evaluator.warnings = e.warnings := by
  obtain ⟨root, c, hc, rfl⟩ := Expr.compile_eq_ok.1 h
  exact codeOf_warnings e hc

namespace CompileWarning

inductive Kind
  | unusedBinding | unusedParameter | unusedFunction | shadows
deriving DecidableEq

def kind : CompileWarning → Kind
  | unusedBinding .. => .unusedBinding
  | unusedParameter .. => .unusedParameter
  | unusedFunction .. => .unusedFunction
  | shadows .. => .shadows

/-- What the warning says, and of which binder. -/
def subject (w : CompileWarning) : Kind × Ident := (w.kind, ⟨w.name, w.span⟩)

variable (k : Kind) (i : Ident)

/-- How often a warning of kind `k` is about `i`. The warnings of a kind do not come in the order of
the binders, and so they are counted. -/
def countOf (ws : List CompileWarning) : Nat := (ws.map subject).count (k, i)

@[simp] theorem countOf_append (ws ws' : List CompileWarning) :
    countOf k i (ws ++ ws') = countOf k i ws + countOf k i ws' := by
  simp [countOf]

theorem count_binder (n : Ident) (binders : List Ident) :
    (n :: binders).count i = [n].count i + binders.count i := by
  rw [← List.singleton_append, List.count_append]

theorem countOf_singleton (w : CompileWarning) :
    countOf k i [w] ≤ if k = w.kind then [(⟨w.name, w.span⟩ : Ident)].count i else 0 := by
  by_cases h : w.kind = k
  · simp [countOf, subject, List.count_singleton, h]
  · simp [countOf, subject, h]

theorem countOf_unless {used : Prop} [Decidable used] (w : CompileWarning) :
    countOf k i (if used then [] else [w]) ≤
      if k = w.kind then [(⟨w.name, w.span⟩ : Ident)].count i else 0 := by
  split
  · exact Nat.zero_le _
  · exact countOf_singleton k i w

theorem countOf_shadowing (n : Ident) :
    countOf k i (shadowing n) ≤ if k = .shadows then [n].count i else 0 := by
  unfold shadowing
  split
  · exact countOf_singleton k i _
  · exact Nat.zero_le _

theorem countOf_flatMap {f : Ident → List CompileWarning} {own : Kind}
    (hf : ∀ p, countOf k i (f p) ≤ if k = own then [p].count i else 0) (ps : List Ident) :
    countOf k i (ps.flatMap f) ≤ if k = own then ps.count i else 0 := by
  induction ps with
  | nil => exact Nat.zero_le _
  | cons p ps ih =>
    have hp := hf p
    rw [List.flatMap_cons, countOf_append, count_binder]
    by_cases h : k = own
    · simp only [if_pos h] at hp ih ⊢
      omega
    · simp only [if_neg h] at hp ih ⊢
      omega

theorem countOf_unusedParams (ps : List Ident) (names : List String) :
    countOf k i ((ps.filter (·.name ∉ names)).map fun p => .unusedParameter p.name p.span) ≤
      if k = .unusedParameter then ps.count i else 0 := by
  have hflat : ((ps.filter (·.name ∉ names)).map fun p => .unusedParameter p.name p.span) =
      ps.flatMap fun p => if p.name ∈ names then [] else [unusedParameter p.name p.span] := by
    induction ps with
    | nil => rfl
    | cons p ps ih =>
      rw [List.filter_cons, List.flatMap_cons, ← ih]
      by_cases h : p.name ∈ names <;> simp [h]
  rw [hflat]
  exact countOf_flatMap k i (fun p => countOf_unless k i (.unusedParameter p.name p.span)) ps

mutual

/-- Of each kind, a binder has no more than one warning. -/
theorem countOf_warnings : ∀ e : Expr, countOf k i e.warnings ≤ e.binders.count i
  | .number _ _ | .reference _ _ => Nat.le_refl 0
  | .call _ args _ => countOf_warningsAll args
  | .unary _ _ operand _ => countOf_warnings operand
  | .binary _ left right _ => by
    have hl := countOf_warnings left
    have hr := countOf_warnings right
    simp only [Expr.warnings, Expr.binders, countOf_append, List.count_append]
    omega
  | .binding n bound body _ => by
    have hbound := countOf_warnings bound
    have hbody := countOf_warnings body
    have hshadows := countOf_shadowing k i n
    have hunused : countOf k i
        (if n.name ∈ body.freeNames then [] else [.unusedBinding n.name n.span]) ≤
          if k = .unusedBinding then [n].count i else 0 := countOf_unless k i _
    rw [Expr.warnings, Expr.binders, count_binder, List.count_append]
    simp only [countOf_append]
    cases k <;> simp only [reduceCtorEq, if_true, if_false] at hshadows hunused <;> omega
  | .function n params body context _ => by
    have hbody := countOf_warnings body
    have hcontext := countOf_warnings context
    have hshadows := countOf_shadowing k i n
    have hparams := countOf_flatMap k i (countOf_shadowing k i) params
    have hunusedParams := countOf_unusedParams k i params body.freeNames
    have hunused : countOf k i
        (if n.name ∈ body.freeNames.filter (· ∉ params.map (·.name)) ++ context.freeNames then []
          else [.unusedFunction n.name n.span]) ≤
          if k = .unusedFunction then [n].count i else 0 := countOf_unless k i _
    rw [Expr.warnings, Expr.binders, count_binder, List.count_append, List.count_append]
    simp only [countOf_append]
    cases k <;>
      simp only [reduceCtorEq, if_true, if_false] at hshadows hparams hunusedParams hunused <;>
      omega
  | .conditional condition positive negative _ => by
    have hc := countOf_warnings condition
    have hp := countOf_warnings positive
    have hn := countOf_warnings negative
    simp only [Expr.warnings, Expr.binders, countOf_append, List.count_append]
    omega

theorem countOf_warningsAll : ∀ es : List Expr,
    countOf k i (Expr.warningsAll es) ≤ (Expr.bindersAll es).count i
  | [] => Nat.le_refl 0
  | e :: es => by
    have he := countOf_warnings e
    have hes := countOf_warningsAll es
    simp only [Expr.warningsAll, Expr.bindersAll, countOf_append, List.count_append]
    omega

end

end CompileWarning

namespace Expr

variable {e : Expr}

/-- Each warning is about a binder. -/
theorem binder_of_warning {w : CompileWarning} (h : w ∈ e.warnings) :
    (⟨w.name, w.span⟩ : Ident) ∈ e.binders := by
  have hcount := CompileWarning.countOf_warnings w.kind ⟨w.name, w.span⟩ e
  have hpos : 0 < CompileWarning.countOf w.kind ⟨w.name, w.span⟩ e.warnings :=
    List.count_pos_iff.2 (List.mem_map_of_mem h)
  exact List.count_pos_iff.1 (Nat.lt_of_lt_of_le hpos hcount)

/-- Where the binders stand apart, so do the warnings of one kind. -/
theorem warnings_apart (h : (e.binders.map (·.span)).Nodup) :
    e.warnings.Pairwise fun a b => a.kind = b.kind → a.span ≠ b.span := by
  have hsubjects : (e.warnings.map CompileWarning.subject).Nodup := by
    refine List.nodup_iff_count.2 fun (k, i) => ?_
    exact Nat.le_trans (CompileWarning.countOf_warnings k i e)
      (List.nodup_iff_count.1 (List.Nodup.of_map _ h) i)
  refine (List.pairwise_map.1 hsubjects).imp_of_mem fun ha hb hne hkind hspan => hne ?_
  have hident := List.inj_on_of_nodup_map h (binder_of_warning ha) (binder_of_warning hb) hspan
  exact Prod.ext hkind hident

end Expr

end Heightfield
