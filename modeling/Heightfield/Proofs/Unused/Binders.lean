import Heightfield.Proofs.Compilation.Warnings
import Heightfield.Proofs.WellFormed.Usage

/-! What a compiled tree is warned of, told by what its names resolve to: a binder to which nothing
resolves is unused, and one that bears the name of a coordinate or a builtin hides it. -/

namespace Heightfield

namespace Expr

/-- What is told of a binder that hides a coordinate, or else a builtin. -/
def hides (n : Ident) : List CompileWarning :=
  if n.name ∈ ["x", "y", "t"] then [.shadows n.name n.span "evaluation parameter"]
  else if n.name ∈ Builtin.names then [.shadows n.name n.span "builtin"]
  else []

mutual

/-- Binder by binder, from left to right. A binder that may be unused is told of behind the parts
that could use it. -/
def binderWarnings : Expr → List CompileWarning
  | number _ _ | reference _ _ => []
  | call _ args _ => binderWarningsAll args
  | unary _ _ operand _ => operand.binderWarnings
  | binary _ left right _ => left.binderWarnings ++ right.binderWarnings
  | binding n bound body _ =>
    bound.binderWarnings ++ hides n ++ body.binderWarnings ++
      if body.Refers n.name then [] else [.unusedBinding n.name n.span]
  | function n params body context _ =>
    hides n ++ params.flatMap hides ++ body.binderWarnings ++
      (params.filter (¬ body.Refers ·.name)).map (fun p => .unusedParameter p.name p.span) ++
      context.binderWarnings ++
      -- a parameter of the function's name takes the calls in the body
      if body.Calls n.name ∧ n.name ∉ params.map (·.name) ∨ context.Calls n.name then []
      else [.unusedFunction n.name n.span]
  | conditional condition positive negative _ =>
    condition.binderWarnings ++ positive.binderWarnings ++ negative.binderWarnings

def binderWarningsAll : List Expr → List CompileWarning
  | [] => []
  | e :: es => e.binderWarnings ++ binderWarningsAll es

end

theorem shadowing_eq (n : Ident) : Compilation.shadowing n = hides n := by
  have hcoordinate : (Param.lookup? n.name).isSome ↔ n.name ∈ ["x", "y", "t"] := by
    rw [Param.lookup?, List.find?_isSome]
    simp [Param.all, Param.name, eq_comm]
  have hbuiltin : (Builtin.lookup? n.name).isSome ↔ n.name ∈ Builtin.names := by
    rw [Builtin.lookup?, List.lookup_isSome_iff, Builtin.names, List.mem_map]
    exact exists_congr fun _ => and_congr_right fun _ => beq_iff_eq.trans eq_comm
  simp only [Compilation.shadowing, Compilation.shadowed?, hides, hcoordinate, hbuiltin]
  split_ifs <;> rfl

end Expr

namespace WellFormed

variable {names : Names} {n : Ident} {params : List Ident} {bound body context : Expr} {s : Span}

/-- Nothing but references can use a bound value. -/
theorem binding_used (h : WellFormed (names.bind n) body) :
    n.name ∈ body.freeNames ↔ body.Refers n.name :=
  h.mem_freeNames_of_value (Names.sense?_bind.trans (if_pos rfl))

theorem parameter_used (h : WellFormed (names.enter n params) body) {p : Ident} (hp : p ∈ params) :
    p.name ∈ body.freeNames ↔ body.Refers p.name :=
  h.mem_freeNames_of_value
    (Names.sense?_enter.trans (if_pos (List.mem_map_of_mem (f := (·.name)) hp)))

/-- Nothing but calls can use a function. -/
theorem function_used (hbody : WellFormed (names.enter n params) body)
    (hcontext : WellFormed (names.define n params) context) :
    n.name ∈ body.freeNames.filter (· ∉ params.map (·.name)) ++ context.freeNames ↔
      body.Calls n.name ∧ n.name ∉ params.map (·.name) ∨ context.Calls n.name := by
  have hsense : (names.define n params).sense? n.name = some (.function params.length) :=
    Names.sense?_define.trans (if_pos rfl)
  rw [List.mem_append, List.mem_filter, decide_eq_true_eq,
    hcontext.mem_freeNames_of_function hsense]
  refine or_congr_left (and_congr_left fun hparams => ?_)
  exact hbody.mem_freeNames_of_function
    ((Names.sense?_enter.trans (if_neg hparams)).trans hsense)

theorem warnings_eq {e : Expr} (h : WellFormed names e) : e.warnings = e.binderWarnings := by
  induction h with
  | number => rfl
  | reference => rfl
  | @call names n args s resolved parts ih =>
    have hargs : Expr.warningsAll args = Expr.binderWarningsAll args := by
      clear resolved parts
      induction args with
      | nil => rfl
      | cons arg args iha =>
        obtain ⟨harg, hargs⟩ := List.forall_mem_cons.1 ih
        rw [Expr.warningsAll, Expr.binderWarningsAll, harg, iha hargs]
    exact hargs
  | unary _ _ ih => exact ih
  | binary _ _ ih ih' => rw [Expr.warnings, Expr.binderWarnings, ih, ih']
  | binding _ second ih ih' =>
    simp only [Expr.warnings, Expr.binderWarnings, ih, ih', Expr.shadowing_eq,
      second.binding_used]
  | @function names n params body context s _ first second ih ih' =>
    have hparams : params.filter (·.name ∉ body.freeNames) =
        params.filter (¬ body.Refers ·.name) :=
      List.filter_congr fun p hp => decide_eq_decide.2 (not_congr (first.parameter_used hp))
    have hshadowing : Compilation.shadowing = Expr.hides := funext Expr.shadowing_eq
    simp only [Expr.warnings, Expr.binderWarnings, ih, ih', hshadowing, hparams,
      function_used first second]
  | conditional _ _ _ ih ih' ih'' =>
    rw [Expr.warnings, Expr.binderWarnings, ih, ih', ih'']

end WellFormed

/-- A compiled tree is warned of the binders that hide something and of those that nothing uses, in
the order in which they are passed, and of nothing else. -/
theorem compile_warns_of_binders {e : Expr} {evaluator : Evaluator}
    (h : e.compile = .ok evaluator) : evaluator.warnings = e.binderWarnings :=
  (Expr.compile_warnings h).trans ((Expr.compile_isOk_iff e).1 ⟨evaluator, h⟩).warnings_eq

/-- `let f(a, b) = let a = b in a in let sin = f(x, y) in x`: the inner `a` takes the reference from
the parameter. -/
def takenNames : Expr :=
  let name (text : String) (start : Nat) : Ident := ⟨text, ⟨start, start + text.length⟩⟩
  let use (text : String) (start : Nat) : Expr :=
    .reference (name text start) ⟨start, start + text.length⟩
  .function (name "f" 4) [name "a" 6, name "b" 9]
    (.binding (name "a" 18) (use "b" 22) (use "a" 27) ⟨14, 28⟩)
    (.binding (name "sin" 36) (.call (name "f" 42) [use "x" 44, use "y" 47] ⟨42, 49⟩)
      (use "x" 53) ⟨32, 54⟩) ⟨0, 54⟩

theorem takenNames_warned :
    ∃ evaluator, takenNames.compile = .ok evaluator ∧
      evaluator.warnings = [.unusedParameter "a" ⟨6, 7⟩, .shadows "sin" ⟨36, 39⟩ "builtin",
        .unusedBinding "sin" ⟨36, 39⟩] := by
  have hok : takenNames.compile.isOk = true := by decide +kernel
  cases h : takenNames.compile with
  | error error =>
    rw [h] at hok
    cases hok
  | ok evaluator =>
    refine ⟨evaluator, rfl, (compile_warns_of_binders h).trans ?_⟩
    decide +kernel

end Heightfield
