import Heightfield.Proofs.Compilation.Random
import Heightfield.Proofs.Expr.Occurrence
import Heightfield.Proofs.Meaning.Preservation

/-! What the promise of determinism is worth. It is made where no call is left to the builtin `rand`;
then no code that was compiled can draw a number, so the numbers are never looked at, and where they
come from cannot make a difference. -/

namespace Heightfield

/-- Nothing in the code draws a number. What it calls is not looked at. -/
inductive Code.Drawless : Code → Prop
  | const {value} : Drawless (.const value)
  | param {p} : Drawless (.param p)
  | frame {hops} : Drawless (.frame hops)
  | negate {operand} (part : Drawless operand) : Drawless (.negate operand)
  | math {f arg} (part : Drawless arg) : Drawless (.math f arg)
  | binary {op left right} (first : Drawless left) (second : Drawless right) :
      Drawless (.binary op left right)
  | branch {condition positive negative} (first : Drawless condition) (second : Drawless positive)
      (third : Drawless negative) : Drawless (.branch condition positive negative)
  | bind {value body} (first : Drawless value) (second : Drawless body) :
      Drawless (.bind value body)
  | call {index hops args} (parts : ∀ arg ∈ args, Drawless arg) : Drawless (.call index hops args)

namespace Compilation

/-- No function compiled so far draws a number. -/
def Drawless (c : Compilation) : Prop := ∀ code ∈ c.functions, code.Drawless

section Tables

variable {c c' : Compilation} {n : Ident} {params : List Ident} {inner : Code}

theorem Drawless.inside (h : c.Drawless) : (c.inside n params).Drawless := by
  intro code hcode
  rcases Array.mem_push.1 hcode with hcode | rfl
  · exact h code hcode
  · exact .const

theorem Drawless.closed (h : c.Drawless) (hinner : inner.Drawless) (index : Nat) :
    (c.closed index params inner).Drawless := by
  intro code hcode
  rcases Array.mem_or_eq_of_mem_setIfInBounds hcode with hcode | rfl
  · exact h code hcode
  · exact hinner

theorem Drawless.of_functions_eq (h : c.Drawless) (hf : c'.functions = c.functions) :
    c'.Drawless := by
  unfold Drawless at *
  rwa [hf]

end Tables

theorem Extends.not_random {nodes : Nat} {c c' : Compilation} (h : Extends nodes c c')
    (hc : c'.usesRandom = false) : c.usesRandom = false := by
  cases hr : c.usesRandom with
  | false => rfl
  | true => exact (h.random hr).symm.trans hc

theorem reference_drawless {n : Ident} {c c' : Compilation} {code : Code}
    (h : reference n c = .ok code c') : code.Drawless ∧ c'.functions = c.functions := by
  obtain ⟨rfl, ⟨slot, -, rfl⟩ | ⟨-, ⟨p, -, rfl⟩ | ⟨-, v, -, rfl⟩⟩⟩ := reference_ok h
  · exact ⟨.frame, rfl⟩
  · exact ⟨.param, rfl⟩
  · exact ⟨.const, rfl⟩

/-- A call of `rand` would be noted. -/
theorem callOf_drawless {target : Callee} {codes : List Code} {c c' : Compilation} {code : Code}
    (h : callOf target codes c = .ok code c') (hr : c'.usesRandom = false)
    (hcodes : ∀ code ∈ codes, code.Drawless) :
    code.Drawless ∧ c'.functions = c.functions := by
  cases target with
  | function index hops =>
    cases h
    exact ⟨.call hcodes, rfl⟩
  | math f =>
    cases h
    refine ⟨?_, rfl⟩
    cases hlast : codes.getLast? with
    | none => exact .const
    | some arg => exact .math (hcodes arg (List.mem_of_getLast? hlast))
  | random =>
    cases h
    cases hr

mutual

theorem codeOf_drawless : ∀ (e : Expr) {c c' : Compilation} {code : Code},
    codeOf e c = .ok code c' → c'.usesRandom = false → c.Drawless → code.Drawless ∧ c'.Drawless
  | .number _ _, _, _, _, h, _, hc => by
    obtain ⟨rfl, rfl⟩ := number_ok h
    exact ⟨.const, hc⟩
  | .reference n _, _, _, _, h, _, hc => by
    obtain ⟨hcode, hf⟩ := reference_drawless h
    exact ⟨hcode, hc.of_functions_eq hf⟩
  | .call n args _, c, _, _, h, hr, hc => by
    obtain ⟨target, c₁, codes, c₂, hcallee, hargs, hcall⟩ := call_ok h
    obtain ⟨rfl, -⟩ := callee_ok hcallee
    obtain ⟨hcodes, hc₂⟩ := codesOf_drawless args hargs ((callOf_extends hcall).not_random hr) hc
    obtain ⟨hcode, hf⟩ := callOf_drawless hcall hr hcodes
    exact ⟨hcode, hc₂.of_functions_eq hf⟩
  | .unary op _ operand _, _, _, _, h, hr, hc => by
    obtain ⟨-, -, inner, hinner, rfl⟩ := unary_ok h
    obtain ⟨hcode, hc'⟩ := codeOf_drawless operand hinner hr hc
    by_cases hop : op = .sub
    · rw [if_pos hop]
      exact ⟨.negate hcode, hc'⟩
    · rw [if_neg hop]
      exact ⟨hcode, hc'⟩
  | .binary _ left right _, _, _, _, h, hr, hc => by
    obtain ⟨l, c₁, r, hl, hright, rfl⟩ := binary_ok h
    have hr₁ := (codeOf_extends right hright).not_random hr
    obtain ⟨hleft, hc₁⟩ := codeOf_drawless left hl hr₁ hc
    obtain ⟨hcode, hc'⟩ := codeOf_drawless right hright hr hc₁
    exact ⟨.binary hleft hcode, hc'⟩
  | .binding n bound body _, _, _, _, h, hr, hc => by
    obtain ⟨value, c₁, inner, c₂, hbound, hbody, rfl, rfl⟩ := binding_ok h
    have hr₁ : c₁.usesRandom = false := (codeOf_extends body hbody).not_random hr
    obtain ⟨hvalue, hc₁⟩ := codeOf_drawless bound hbound hr₁ hc
    have hunder : (c₁.under n).Drawless := hc₁
    obtain ⟨hinner, hc₂⟩ := codeOf_drawless body hbody hr hunder
    exact ⟨.bind hvalue hinner, hc₂⟩
  | .function n params body context _, c, _, _, h, hr, hc => by
    obtain ⟨-, inner, c₁, c₂, hbody, hcontext, rfl⟩ := function_ok h
    have hr₁ : c₁.usesRandom = false := (codeOf_extends context hcontext).not_random hr
    obtain ⟨hinner, hc₁⟩ := codeOf_drawless body hbody hr₁ hc.inside
    obtain ⟨hcode, hc₂⟩ :=
      codeOf_drawless context hcontext hr (hc₁.closed hinner c.functions.size)
    exact ⟨hcode, hc₂⟩
  | .conditional condition positive negative _, _, _, _, h, hr, hc => by
    obtain ⟨test, c₁, yes, c₂, no, htest, hyes, hno, rfl⟩ := conditional_ok h
    have hr₂ := (codeOf_extends negative hno).not_random hr
    have hr₁ := (codeOf_extends positive hyes).not_random hr₂
    obtain ⟨hcondition, hc₁⟩ := codeOf_drawless condition htest hr₁ hc
    obtain ⟨hpositive, hc₂⟩ := codeOf_drawless positive hyes hr₂ hc₁
    obtain ⟨hnegative, hc'⟩ := codeOf_drawless negative hno hr hc₂
    exact ⟨.branch hcondition hpositive hnegative, hc'⟩

theorem codesOf_drawless : ∀ (es : List Expr) {c c' : Compilation} {codes : List Code},
    codesOf es c = .ok codes c' → c'.usesRandom = false → c.Drawless →
      (∀ code ∈ codes, code.Drawless) ∧ c'.Drawless
  | [], _, _, _, h, _, hc => by
    obtain ⟨rfl, rfl⟩ := codesOf_nil_ok h
    exact ⟨nofun, hc⟩
  | e :: es, _, _, _, h, hr, hc => by
    obtain ⟨first, c₁, others, hfirst, hothers, rfl⟩ := codesOf_cons_ok h
    have hr₁ := (codesOf_extends es hothers).not_random hr
    obtain ⟨hcode, hc₁⟩ := codeOf_drawless e hfirst hr₁ hc
    obtain ⟨hcodes, hc'⟩ := codesOf_drawless es hothers hr hc₁
    exact ⟨List.forall_mem_cons.2 ⟨hcode, hcodes⟩, hc'⟩

end

end Compilation

/-- How many numbers had been drawn when the run ended, with a value or without. -/
def drawnBy {α : Type} : EStateM.Result Halt Nat α → Nat
  | .ok _ n | .error _ n => n

/-- Two runs that are the same, and draw no number. -/
structure Undrawn {α : Type} (x x' : Run α) : Prop where
  same : x = x'
  still : ∀ n, drawnBy (x n) = n

namespace Undrawn

variable {α β : Type} {x x' : Run α} {f f' : α → Run β}

theorem pure (a : α) : Undrawn (Pure.pure a : Run α) (Pure.pure a) := ⟨rfl, fun _ => rfl⟩

theorem throw (halt : Halt) : Undrawn (MonadExcept.throw halt : Run α) (MonadExcept.throw halt) :=
  ⟨rfl, fun _ => rfl⟩

theorem bind (hx : Undrawn x x') (hf : ∀ a, Undrawn (f a) (f' a)) :
    Undrawn (x >>= f) (x' >>= f') where
  same := by rw [hx.same, funext fun a => (hf a).same]
  still n := by
    have hn := hx.still n
    rw [bind_apply]
    cases hr : x n with
    | ok a n' =>
      rw [hr] at hn
      exact ((hf a).still n').trans hn
    | error halt n' =>
      rw [hr] at hn
      exact hn

end Undrawn

section Runs

variable {draws draws' : Draws} {point : Point} {enter enter' : Nat → Frames → Run Float}

/-- Code draws nothing where neither it nor what it enters does. -/
theorem Code.Drawless.run {code : Code} (h : code.Drawless)
    (henter : ∀ index frames, Undrawn (enter index frames) (enter' index frames)) :
    ∀ frames, Undrawn (code.run draws point enter frames) (code.run draws' point enter' frames) := by
  induction h with
  | const => exact fun _ => .pure _
  | param => exact fun _ => .pure _
  | frame => exact fun _ => .pure _
  | negate _ ih => exact fun frames => (ih frames).bind fun v => .pure (-v)
  | math _ ih => exact fun frames => (ih frames).bind fun v => .pure _
  | @binary op _ _ _ _ ih ih' =>
    intro frames
    refine (ih frames).bind fun l => ?_
    cases op.decided? l with
    | some v => exact .pure v
    | none => exact (ih' frames).bind fun r => .pure (op.apply l r)
  | branch _ _ _ ih ih' ih'' =>
    intro frames
    refine (ih frames).bind fun c => ?_
    by_cases hc : truthy c = true
    · rw [if_pos hc, if_pos hc]
      exact ih' frames
    · rw [if_neg hc, if_neg hc]
      exact ih'' frames
  | bind _ _ ih ih' => exact fun frames => (ih frames).bind fun v => ih' (v :: frames)
  | @call index hops args parts ih =>
    intro frames
    have hargs : Undrawn (Code.runAll draws point enter args frames)
        (Code.runAll draws' point enter' args frames) := by
      clear parts
      induction args with
      | nil => exact .pure []
      | cons arg args iha =>
        obtain ⟨harg, hothers⟩ := List.forall_mem_cons.1 ih
        exact (harg frames).bind fun v => (iha hothers).bind fun vs => .pure (v :: vs)
    exact hargs.bind fun values => henter index _

theorem Program.enter_undrawn {program : Program} (h : ∀ code ∈ program.functions, code.Drawless)
    (depth : Nat) : ∀ index frames,
      Undrawn (program.enter draws point depth index frames)
        (program.enter draws' point depth index frames) := by
  induction depth with
  | zero => exact fun _ _ => .throw .tooDeep
  | succ depth ih =>
    intro index frames
    unfold Program.enter
    cases hbody : program.functions[index]? with
    | none => exact .throw (.noFunction index)
    | some body => exact (h body (Array.mem_of_getElem? hbody)).run ih frames

end Runs

/-- How many numbers are drawn at a point, with at most `depth` calls open at a time. -/
def Program.drawnWithin (program : Program) (depth : Nat) (draws : Draws) (point : Point) : Nat :=
  drawnBy (program.root.run draws point (program.enter draws point depth) [] 0)

namespace Expr

variable {e : Expr} {evaluator : Evaluator}

theorem run_undrawn (h : e.compile = .ok evaluator) (hd : evaluator.isDeterministic = true)
    (point : Point) (depth : Nat) (draws draws' : Draws) :
    Undrawn
      (evaluator.program.root.run draws point (evaluator.program.enter draws point depth) [])
      (evaluator.program.root.run draws' point (evaluator.program.enter draws' point depth) []) := by
  have hr := Evaluator.usesRandom_eq_false hd
  obtain ⟨root, c, hc, rfl⟩ := compile_eq_ok.1 h
  obtain ⟨hroot, hfunctions⟩ := Compilation.codeOf_drawless e hc hr nofun
  have htable : ∀ code ∈ (c.finish root).program.functions, code.Drawless := hfunctions
  exact hroot.run (Program.enter_undrawn htable depth) []

theorem eval_unique (h : e.compile = .ok evaluator) (hd : evaluator.isDeterministic = true)
    {point : Point} {v w : Float} (hv : Eval point .empty e v) (hw : Eval point .empty e w) :
    v = w := by
  obtain ⟨d, hd₁⟩ := evalWithin_of_eval h hd (fun _ => 0.0) hv
  obtain ⟨d', hd₂⟩ := evalWithin_of_eval h hd (fun _ => 0.0) hw
  exact Except.ok.inj ((hd₁ (max d d') (Nat.le_max_left d d')).symm.trans
    (hd₂ (max d d') (Nat.le_max_right d d')))

/-- At each point a deterministic evaluator has one value whatever is drawn, or never ends. -/
theorem returns_or_diverges (h : e.compile = .ok evaluator) (hd : evaluator.isDeterministic = true)
    (point : Point) :
    (∃ v, ∀ draws w, evaluator.Returns draws point w ↔ w = v) ∨
      ∀ draws, evaluator.Diverges draws point := by
  by_cases hvalue : ∃ v, Eval point .empty e v
  · obtain ⟨v, hv⟩ := hvalue
    refine .inl ⟨v, fun draws w => ⟨?_, ?_⟩⟩
    · rintro ⟨depth, hw⟩
      obtain ⟨w', hw', heval⟩ | hdeep := evalWithin_yields h hd draws point depth
      · cases hw.symm.trans hw'
        exact eval_unique h hd heval hv
      · cases hw.symm.trans hdeep
    · rintro rfl
      obtain ⟨d, hd₁⟩ := evalWithin_of_eval h hd draws hv
      exact ⟨d, hd₁ d (Nat.le_refl d)⟩
  · refine .inr fun draws depth => ?_
    obtain ⟨v, -, heval⟩ | hdeep := evalWithin_yields h hd draws point depth
    · exact absurd ⟨v, heval⟩ hvalue
    · exact hdeep

end Expr

/-- A compiled tree is not deterministic just where a call of `rand` stands in it that no binder has
taken. If it is, it draws no number at any point, within whatever depth; evaluations that would draw
other numbers come to the same, and there is one value that all of them return, or none of them
ends. -/
theorem compile_determinism {e : Expr} {evaluator : Evaluator} (h : e.compile = .ok evaluator) :
    (evaluator.isDeterministic = false ↔ e.Calls "rand") ∧
      (evaluator.isDeterministic = true → ∀ point,
        (∀ depth draws, evaluator.program.drawnWithin depth draws point = 0) ∧
        (∀ depth draws draws', evaluator.program.evalWithin depth draws point =
          evaluator.program.evalWithin depth draws' point) ∧
        ((∃ v, ∀ draws w, evaluator.Returns draws point w ↔ w = v) ∨
          ∀ draws, evaluator.Diverges draws point)) := by
  refine ⟨?_, fun hd point => ⟨fun depth draws => ?_, fun depth draws draws' => ?_, ?_⟩⟩
  · rw [← Expr.mem_outerCalls, ← Bool.not_eq_true, Expr.isDeterministic_iff h,
      Decidable.not_not]
  · exact (Expr.run_undrawn h hd point depth draws draws).still 0
  · rw [Program.evalWithin, (Expr.run_undrawn h hd point depth draws draws').same,
      Program.evalWithin]
  · exact Expr.returns_or_diverges h hd point

/-- `let rand() = t in if x then rand() else y`, where the call is of the function. -/
def takenRand : Expr :=
  let name (text : String) : Ident := ⟨text, ⟨0, 0⟩⟩
  let sp : Span := ⟨0, 0⟩
  .function (name "rand") [] (.reference (name "t") sp)
    (.conditional (.reference (name "x") sp) (.call (name "rand") [] sp)
      (.reference (name "y") sp) sp) sp

theorem takenRand_draws_nothing :
    ∃ evaluator, takenRand.compile = .ok evaluator ∧ evaluator.isDeterministic = true ∧
      ∀ draws, evaluator.program.drawnWithin 1 draws ⟨1.0, 2.0, 3.0⟩ = 0 := by
  have hok : takenRand.compile.isOk = true := by decide +kernel
  have hcalls : ¬ takenRand.Calls "rand" := by decide +kernel
  cases h : takenRand.compile with
  | error error =>
    rw [h] at hok
    cases hok
  | ok evaluator =>
    obtain ⟨hrand, hdraws⟩ := compile_determinism h
    have hd : evaluator.isDeterministic = true := by
      rw [← Bool.not_eq_false, hrand]
      exact hcalls
    exact ⟨evaluator, rfl, hd, fun draws => (hdraws hd ⟨1.0, 2.0, 3.0⟩).1 1 draws⟩

end Heightfield
