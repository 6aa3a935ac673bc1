import Heightfield.Proofs.Meaning.Frames

/-! Compilation keeps the meaning of an expression. One direction is an induction on the depth of
calls and, inside one call, on the expression; the other follows the derivation of `Eval`, whose
last steps hold at every large enough depth. -/

namespace Heightfield

/-- A run from counter `n` that draws nothing ends in a value with `P`, or in too many calls. -/
def Yields {α : Type} (n : Nat) (P : α → Prop) : EStateM.Result Halt Nat α → Prop
  | .ok a n' => n' = n ∧ P a
  | .error h _ => h = .tooDeep

theorem Yields.bind {α β : Type} {n : Nat} {P : α → Prop} {Q : β → Prop} {x : Run α}
    {f : α → Run β} (hx : Yields n P (x n)) (hf : ∀ a, P a → Yields n Q (f a n)) :
    Yields n Q ((x >>= f) n) := by
  rw [bind_apply]
  cases hr : x n with
  | ok a n' =>
    rw [hr] at hx
    obtain ⟨rfl, ha⟩ := hx
    exact hf a ha
  | error h n' =>
    rw [hr] at hx
    exact hx

theorem Yields.imp {α : Type} {n : Nat} {P Q : α → Prop} {r : EStateM.Result Halt Nat α}
    (hr : Yields n P r) (h : ∀ a, P a → Q a) : Yields n Q r := by
  cases r with
  | ok a n' => exact ⟨hr.1, h a hr.2⟩
  | error e n' => exact hr

/-- Where both operands are needed, the left one decides nothing. -/
theorem Op.apply_of_strict {op : Op} {f : Float → Float → Float} (h : op.strict? = some f)
    (l r : Float) : op.decided? l = none ∧ op.apply l r = f l r := by
  cases op <;> simp only [Op.strict?, Option.some.injEq, reduceCtorEq] at h <;> subst h <;>
    refine ⟨rfl, ?_⟩
  case ne => cases hlr : l == r <;> simp [Op.apply, ofBool, bne, hlr]
  all_goals simp [Op.apply, ofBool]

theorem Op.strict?_eq_none {op : Op} (h : op.strict? = none) : op = .and ∨ op = .or := by
  cases op <;> simp [Op.strict?] at h <;> simp

variable {table : Array Code} {point : Point} {draws : Draws}

section Values

/-- Entering a function runs the body whose code its table entry holds. -/
def EntersWell (table : Array Code) (point : Point) (enter : Nat → Frames → Run Float) : Prop :=
  ∀ {env s frames body inner index} (n : Nat), Matches table env s frames →
    table[index]? = some inner → Lowers table false s body inner →
      Yields n (Eval point env body) (enter index frames n)

variable {enter : Nat → Frames → Run Float}

mutual

theorem run_yields (henter : EntersWell table point enter) (e : Expr) :
    ∀ {env : Env} {s : Scope} {frames : Frames} {code : Code} (n : Nat),
      Lowers table false s e code → Matches table env s frames →
        Yields n (Eval point env e) (code.run draws point enter frames n) := by
  intro env s frames code n hl hm
  cases hl with
  | number => exact ⟨rfl, .number⟩
  | slot found =>
    obtain ⟨d, hd, hx⟩ := hm.of_scope found
    cases hx with
    | value below held =>
      refine ⟨rfl, ?_⟩
      rw [Frames.read, held]
      exact .bound hd
  | @coordinate s x sp p free found =>
    obtain ⟨d, hd, hx⟩ := hm.of_scope free
    cases hx
    exact ⟨rfl, .coordinate p hd (Param.lookup?_eq_some_iff.1 found)⟩
  | constant free other found =>
    obtain ⟨d, hd, hx⟩ := hm.of_scope free
    cases hx
    obtain ⟨hname, rfl⟩ | ⟨hname, rfl⟩ := Builtin.lookup?_constant_iff.1 found
    · exact ⟨rfl, .pi hd hname⟩
    · exact ⟨rfl, .e hd hname⟩
  | @call s x args sp index depth codes found parts =>
    obtain ⟨d, hd, hx⟩ := hm.of_scope found
    generalize harity : args.length = arity at hx
    cases hx with
    | closure below env' entry lowers =>
      rw [Code.run]
      refine (runAll_yields henter args n parts hm).bind fun values hvalues => ?_
      have hlen := hvalues.length_eq.trans harity
      exact (henter n (env'.bindAll hlen) entry lowers).imp fun v hv =>
        .call hd harity hvalues hv
  | @math s x arg sp f code free other found part =>
    obtain ⟨d, hd, hx⟩ := hm.of_scope free
    cases hx
    rw [Code.run]
    exact (run_yields henter arg n part hm).bind fun v hv =>
      ⟨rfl, .math f hd (Builtin.lookup?_math_iff.1 found) hv⟩
  | rand allowed => cases allowed
  | @plus s operand sp code part =>
    exact (run_yields henter operand n part hm).imp fun v hv => .plus hv
  | @minus s operand sp code part =>
    rw [Code.run]
    exact (run_yields henter operand n part hm).bind fun v hv => ⟨rfl, .minus hv⟩
  | @binary s op left right sp l r first second =>
    rw [Code.run]
    refine (run_yields henter left n first hm).bind fun a ha => ?_
    have ih := run_yields henter right n second hm
    cases hop : op.strict? with
    | some f =>
      rw [(Op.apply_of_strict hop a a).1]
      refine ih.bind fun b hb => ?_
      rw [(Op.apply_of_strict hop a b).2]
      exact ⟨rfl, .strict hop ha hb⟩
    | none =>
      -- Only `&&` and `||` look at their left operand first.
      obtain rfl | rfl := Op.strict?_eq_none hop <;> by_cases ht : truthy a = true
      · simp only [Op.decided?, ht, ↓reduceIte]
        exact ih.bind fun b hb => ⟨rfl, .andOpen ha (truthy_iff.1 ht) hb⟩
      · simp only [Op.decided?, ht]
        exact ⟨rfl, .andDecided ha fun h => ht (truthy_iff.2 h)⟩
      · simp only [Op.decided?, ht, ↓reduceIte]
        exact ⟨rfl, .orDecided ha (truthy_iff.1 ht)⟩
      · simp only [Op.decided?, ht]
        exact ih.bind fun b hb => ⟨rfl, .orOpen ha (fun h => ht (truthy_iff.2 h)) hb⟩
  | @binding s x bound body sp value inner first second =>
    rw [Code.run]
    refine (run_yields henter bound n first hm).bind fun a ha => ?_
    exact (run_yields henter body n second (hm.value x.name a)).imp fun v hv => .binding ha hv
  | @function s x params body context sp index inner code entry first second =>
    exact (run_yields henter context n second (hm.function x.name entry first)).imp
      fun v hv => .function hv
  | @conditional s condition positive negative sp test yes no first second third =>
    rw [Code.run]
    refine (run_yields henter condition n first hm).bind fun c hc => ?_
    by_cases ht : truthy c = true
    · rw [if_pos ht]
      exact (run_yields henter positive n second hm).imp fun v hv =>
        .positive hc (truthy_iff.1 ht) hv
    · rw [if_neg ht]
      exact (run_yields henter negative n third hm).imp fun v hv =>
        .negative hc (fun h => ht (truthy_iff.2 h)) hv

theorem runAll_yields (henter : EntersWell table point enter) (es : List Expr) :
    ∀ {env : Env} {s : Scope} {frames : Frames} {codes : List Code} (n : Nat),
      LowersAll table false s es codes → Matches table env s frames →
        Yields n (EvalAll point env es) (Code.runAll draws point enter codes frames n) := by
  intro env s frames codes n hl hm
  cases hl with
  | nil => exact ⟨rfl, .nil⟩
  | @cons s e es code codes first rest =>
    rw [Code.runAll]
    refine (run_yields henter e n first hm).bind fun v hv => ?_
    exact (runAll_yields henter es n rest hm).bind fun vs hvs => ⟨rfl, .cons hv hvs⟩

end

theorem enter_entersWell (program : Program) (depth : Nat) :
    EntersWell program.functions point (program.enter draws point depth) := by
  induction depth with
  | zero => exact fun _ _ _ _ => rfl
  | succ depth ih =>
    intro env s frames body inner index n hm entry hl
    rw [Program.enter, entry]
    exact run_yields ih body n hl hm

end Values

section Depths

variable (program : Program) (draws : Draws) (point : Point)

/-- From some depth of calls on, `code` has the value `v`. -/
def Settles (code : Code) (frames : Frames) (v : Float) : Prop :=
  ∃ d, ∀ depth ≥ d, ∀ n,
    code.run draws point (program.enter draws point depth) frames n = .ok v n

def SettlesAll (codes : List Code) (frames : Frames) (vs : List Float) : Prop :=
  ∃ d, ∀ depth ≥ d, ∀ n,
    Code.runAll draws point (program.enter draws point depth) codes frames n = .ok vs n

variable {program draws point} {code₁ code₂ code : Code} {frames₁ frames₂ frames : Frames}
  {v₁ v₂ v : Float}

theorem Settles.map (h : Settles program draws point code₁ frames₁ v₁)
    (hstep : ∀ enter n, code₁.run draws point enter frames₁ n = .ok v₁ n →
      code.run draws point enter frames n = .ok v n) :
    Settles program draws point code frames v := by
  obtain ⟨d, hd⟩ := h
  exact ⟨d, fun depth hdepth n => hstep _ n (hd depth hdepth n)⟩

theorem Settles.map₂ (h₁ : Settles program draws point code₁ frames₁ v₁)
    (h₂ : Settles program draws point code₂ frames₂ v₂)
    (hstep : ∀ enter n, code₁.run draws point enter frames₁ n = .ok v₁ n →
      code₂.run draws point enter frames₂ n = .ok v₂ n →
        code.run draws point enter frames n = .ok v n) :
    Settles program draws point code frames v := by
  obtain ⟨d₁, hd₁⟩ := h₁
  obtain ⟨d₂, hd₂⟩ := h₂
  exact ⟨max d₁ d₂, fun depth hdepth n =>
    hstep _ n (hd₁ depth (by omega) n) (hd₂ depth (by omega) n)⟩

/-- A call needs one depth more than the body it runs. -/
theorem SettlesAll.call {codes : List Code} {values : List Float} {index hops : Nat} {inner : Code}
    (hargs : SettlesAll program draws point codes frames values)
    (hentry : program.functions[index]? = some inner)
    (hbody : Settles program draws point inner (Frames.ofCall values (frames.drop hops)) v) :
    Settles program draws point (.call index hops codes) frames v := by
  obtain ⟨d₁, hd₁⟩ := hargs
  obtain ⟨d₂, hd₂⟩ := hbody
  refine ⟨max d₁ (d₂ + 1), fun depth hdepth n => ?_⟩
  obtain ⟨k, rfl⟩ : ∃ k, depth = k + 1 := ⟨depth - 1, by omega⟩
  rw [Code.run, bind_apply, hd₁ (k + 1) (by omega) n]
  simp only [Program.enter, hentry]
  exact hd₂ k (by omega) n

variable (program draws point) in
/-- Whatever code `e` has where `env` is laid out, it settles on `v`. -/
def Found (env : Env) (e : Expr) (v : Float) : Prop :=
  ∀ {s frames code}, Lowers program.functions false s e code →
    Matches program.functions env s frames → Settles program draws point code frames v

variable (program draws point) in
def FoundAll (env : Env) (es : List Expr) (vs : List Float) : Prop :=
  ∀ {s frames codes}, LowersAll program.functions false s es codes →
    Matches program.functions env s frames → SettlesAll program draws point codes frames vs

namespace Found

variable {env : Env} {n : Ident} {sp : Span} {left right body context : Expr} {l r : Float}

theorem number : Found program draws point env (.number v sp) v := by
  intro s frames code hl hm
  cases hl
  exact ⟨0, fun _ _ _ => rfl⟩

theorem bound (found : env.lookup n.name = some (.value v)) :
    Found program draws point env (.reference n sp) v := by
  intro s frames code hl hm
  obtain ⟨b, hb, hx⟩ := hm.of_env found
  cases hx with
  | value below held =>
    cases hl with
    | slot found' =>
      cases hb.symm.trans found'
      refine ⟨0, fun depth _ n => ?_⟩
      rw [Code.run, Frames.read, held]
      rfl
    | coordinate free => cases hb.symm.trans free
    | constant free => cases hb.symm.trans free

theorem coordinate (p : Param) (free : env.lookup n.name = none) (name : n.name = p.name) :
    Found program draws point env (.reference n sp) (point.get p) := by
  intro s frames code hl hm
  obtain ⟨b, hb, hx⟩ := hm.of_env free
  cases hx
  have hp := Param.lookup?_eq_some_iff.2 name
  cases hl with
  | slot found => cases hb.symm.trans found
  | coordinate _ found =>
    cases hp.symm.trans found
    exact ⟨0, fun _ _ _ => rfl⟩
  | constant _ other => cases other.symm.trans hp

/-- A constant's name is no coordinate's, so the scope alone could hide it. -/
theorem constant (free : env.lookup n.name = none) (other : Param.lookup? n.name = none)
    (found : Builtin.lookup? n.name = some (.constant v)) :
    Found program draws point env (.reference n sp) v := by
  intro s frames code hl hm
  obtain ⟨b, hb, hx⟩ := hm.of_env free
  cases hx
  cases hl with
  | slot found' => cases hb.symm.trans found'
  | coordinate _ found' => cases other.symm.trans found'
  | constant _ _ found' =>
    cases found.symm.trans found'
    exact ⟨0, fun _ _ _ => rfl⟩

theorem call {args : List Expr} {params : List Ident} {definition : Env} {values : List Float}
    (found : env.lookup n.name = some (.closure params body definition))
    (hlen : values.length = params.length) (parts : FoundAll program draws point env args values)
    (result : Found program draws point (definition.bindAll params values) body v) :
    Found program draws point env (.call n args sp) v := by
  intro s frames code hl hm
  obtain ⟨b, hb, hx⟩ := hm.of_env found
  cases hx with
  | closure below env' entry lowers =>
    cases hl with
    | call found' parts' =>
      obtain ⟨rfl, -, rfl⟩ := by simpa using hb.symm.trans found'
      exact (parts parts' hm).call entry (result lowers (env'.bindAll hlen))
    | math free => cases hb.symm.trans free
    | rand allowed => cases allowed

theorem math (f : MathFunction) (free : env.lookup n.name = none) (name : n.name = f.name)
    (part : Found program draws point env left l) :
    Found program draws point env (.call n [left] sp) (f.apply l) := by
  intro s frames code hl hm
  obtain ⟨b, hb, hx⟩ := hm.of_env free
  cases hx
  cases hl with
  | call found => cases hb.symm.trans found
  | math _ _ found part' =>
    cases found.symm.trans (Builtin.lookup?_math_iff.2 name)
    exact (part part' hm).map fun enter n h => by simp only [Code.run, bind_apply, h, pure_apply]

theorem plus (part : Found program draws point env left v) :
    Found program draws point env (.unary .add .prefixed left sp) v := by
  intro s frames code hl hm
  cases hl with
  | plus part' => exact part part' hm

theorem minus (part : Found program draws point env left v) :
    Found program draws point env (.unary .sub .prefixed left sp) (-v) := by
  intro s frames code hl hm
  cases hl with
  | minus part' =>
    exact (part part' hm).map fun enter n h => by simp only [Code.run, bind_apply, h, pure_apply]

theorem strict {op : Op} {f : Float → Float → Float} (both : op.strict? = some f)
    (first : Found program draws point env left l)
    (second : Found program draws point env right r) :
    Found program draws point env (.binary op left right sp) (f l r) := by
  intro s frames code hl hm
  obtain ⟨hnone, happly⟩ := Op.apply_of_strict both l r
  cases hl with
  | binary first' second' =>
    exact (first first' hm).map₂ (second second' hm) fun enter n h h' => by
      simp only [Code.run, bind_apply, h, h', hnone, happly, pure_apply]

/-- The left operand of `op` is the result. -/
theorem decided {op : Op} (hop : op.decided? l = some l)
    (first : Found program draws point env left l) :
    Found program draws point env (.binary op left right sp) l := by
  intro s frames code hl hm
  cases hl with
  | binary first' _ =>
    exact (first first' hm).map fun enter n h => by
      simp only [Code.run, bind_apply, h, hop, pure_apply]

/-- The left operand of `op` passes on to the right one. -/
theorem passed {op : Op} (hop : op.decided? l = none) (happly : op.apply l r = r)
    (first : Found program draws point env left l)
    (second : Found program draws point env right r) :
    Found program draws point env (.binary op left right sp) r := by
  intro s frames code hl hm
  cases hl with
  | binary first' second' =>
    exact (first first' hm).map₂ (second second' hm) fun enter n h h' => by
      simp only [Code.run, bind_apply, h, h', hop, happly, pure_apply]

theorem binding (first : Found program draws point env left l)
    (second : Found program draws point (.value n.name l env) body v) :
    Found program draws point env (.binding n left body sp) v := by
  intro s frames code hl hm
  cases hl with
  | binding first' second' =>
    exact (first first' hm).map₂ (second second' (hm.value n.name l)) fun enter n h h' => by
      simp only [Code.run, bind_apply, h, h']

theorem function {params : List Ident}
    (result : Found program draws point (.function n.name params body env) context v) :
    Found program draws point env (.function n params body context sp) v := by
  intro s frames code hl hm
  cases hl with
  | function entry first' second' => exact result second' (hm.function n.name entry first')

theorem conditional {condition : Expr} {c : Float}
    (first : Found program draws point env condition c)
    (second : Found program draws point env (if truthy c then left else right) v) :
    Found program draws point env (.conditional condition left right sp) v := by
  intro s frames code hl hm
  cases hl with
  | conditional first' yes no =>
    cases ht : truthy c with
    | true =>
      rw [ht] at second
      exact (first first' hm).map₂ (second yes hm) fun enter n h h' => by
        simp only [Code.run, bind_apply, h, h', ht, ↓reduceIte]
    | false =>
      rw [ht] at second
      exact (first first' hm).map₂ (second no hm) fun enter n h h' => by
        simp only [Code.run, bind_apply, h, h', ht, ↓reduceIte, Bool.false_eq_true]

end Found

theorem FoundAll.cons {env : Env} {e : Expr} {es : List Expr} {vs : List Float}
    (first : Found program draws point env e v) (rest : FoundAll program draws point env es vs) :
    FoundAll program draws point env (e :: es) (v :: vs) := by
  intro s frames codes hl hm
  cases hl with
  | cons first' rest' =>
    obtain ⟨d₁, hd₁⟩ := first first' hm
    obtain ⟨d₂, hd₂⟩ := rest rest' hm
    refine ⟨max d₁ d₂, fun depth hdepth n => ?_⟩
    simp only [Code.runAll, bind_apply, hd₁ depth (by omega) n, hd₂ depth (by omega) n, pure_apply]

theorem truthy_eq_false {v : Float} (h : ¬ Truthy v) : truthy v = false := by
  rw [← truthy_iff] at h
  exact Bool.eq_false_iff.2 h

mutual

theorem Eval.found : ∀ {env : Env} {e : Expr} {v : Float}, Eval point env e v →
    Found program draws point env e v
  | _, _, _, .number => Found.number
  | _, _, _, .bound found => Found.bound found
  | _, _, _, .coordinate p free name => Found.coordinate p free name
  | _, _, _, .pi free name =>
    Found.constant free (by rw [name]; rfl) (Builtin.lookup?_constant_iff.2 (.inl ⟨name, rfl⟩))
  | _, _, _, .e free name =>
    Found.constant free (by rw [name]; rfl) (Builtin.lookup?_constant_iff.2 (.inr ⟨name, rfl⟩))
  | _, _, _, .call found arity parts result =>
    Found.call found (parts.length_eq.trans arity) parts.found result.found
  | _, _, _, .math f free name part => Found.math f free name part.found
  | _, _, _, .plus part => Found.plus part.found
  | _, _, _, .minus part => Found.minus part.found
  | _, _, _, @Eval.strict _ _ _ _ _ _ l r f both first second =>
    Found.strict both first.found second.found
  | _, _, _, .andDecided first test =>
    Found.decided (by simp [Op.decided?, truthy_eq_false test]) first.found
  | _, _, _, .andOpen first test second =>
    Found.passed (by simp [Op.decided?, truthy_iff.2 test]) rfl first.found second.found
  | _, _, _, .orDecided first test =>
    Found.decided (by simp [Op.decided?, truthy_iff.2 test]) first.found
  | _, _, _, .orOpen first test second =>
    Found.passed (by simp [Op.decided?, truthy_eq_false test]) rfl first.found second.found
  | _, _, _, .binding first second => Found.binding first.found second.found
  | _, _, _, .function result => Found.function result.found
  | _, _, _, .positive first test second =>
    Found.conditional first.found (by rw [truthy_iff.2 test]; exact second.found)
  | _, _, _, .negative first test second =>
    Found.conditional first.found (by rw [truthy_eq_false test]; exact second.found)

theorem EvalAll.found : ∀ {env : Env} {es : List Expr} {vs : List Float},
    EvalAll point env es vs → FoundAll program draws point env es vs
  | _, _, _, .nil => fun hl _ => by cases hl; exact ⟨0, fun _ _ _ => rfl⟩
  | _, _, _, .cons first rest => FoundAll.cons first.found rest.found

end

end Depths

section Programs

variable {e : Expr} {evaluator : Evaluator}

theorem Evaluator.usesRandom_eq_false (h : evaluator.isDeterministic = true) :
    evaluator.usesRandom = false := by
  simpa [isDeterministic] using h

theorem Expr.evalWithin_yields (h : e.compile = .ok evaluator)
    (hd : evaluator.isDeterministic = true) (draws : Draws) (point : Point) (depth : Nat) :
    (∃ v, evaluator.program.evalWithin depth draws point = .ok v ∧ Eval point .empty e v) ∨
      evaluator.program.evalWithin depth draws point = .error .tooDeep := by
  have hl := Expr.lowers_of_compile h
  rw [Evaluator.usesRandom_eq_false hd] at hl
  have hy : Yields 0 (Eval point .empty e) (evaluator.program.root.run draws point
      (evaluator.program.enter draws point depth) [] 0) :=
    run_yields (enter_entersWell evaluator.program depth) e 0 hl .empty
  unfold Program.evalWithin
  cases hr : evaluator.program.root.run draws point
    (evaluator.program.enter draws point depth) [] 0 with
  | ok v n =>
    rw [hr] at hy
    exact .inl ⟨v, rfl, hy.2⟩
  | error halt n =>
    rw [hr] at hy
    cases hy
    exact .inr rfl

theorem Expr.evalWithin_of_eval (h : e.compile = .ok evaluator)
    (hd : evaluator.isDeterministic = true) (draws : Draws) {point : Point} {v : Float}
    (hv : Eval point .empty e v) :
    ∃ d, ∀ depth ≥ d, evaluator.program.evalWithin depth draws point = .ok v := by
  have hl := Expr.lowers_of_compile h
  rw [Evaluator.usesRandom_eq_false hd] at hl
  have hfound : Found evaluator.program draws point .empty e v := hv.found
  obtain ⟨d, hsettled⟩ := hfound hl .empty
  refine ⟨d, fun depth hdepth => ?_⟩
  rw [Program.evalWithin, hsettled depth hdepth 0]

/-- A deterministic program has the values of its expression and no others, and it calls without
end just where the expression has none. -/
theorem compile_preserves_meaning (h : e.compile = .ok evaluator)
    (hd : evaluator.isDeterministic = true) (draws : Draws) (point : Point) :
    (∀ v, evaluator.Returns draws point v ↔ Eval point .empty e v) ∧
      (evaluator.Diverges draws point ↔ ¬ ∃ v, Eval point .empty e v) := by
  refine ⟨fun v => ⟨?_, ?_⟩, ?_, ?_⟩
  · rintro ⟨depth, hv⟩
    obtain ⟨w, hw, heval⟩ | hw := Expr.evalWithin_yields h hd draws point depth
    · cases hv.symm.trans hw
      exact heval
    · cases hv.symm.trans hw
  · intro heval
    obtain ⟨d, hd⟩ := Expr.evalWithin_of_eval h hd draws heval
    exact ⟨d, hd d (Nat.le_refl d)⟩
  · rintro hdiv ⟨v, heval⟩
    obtain ⟨d, hd⟩ := Expr.evalWithin_of_eval h hd draws heval
    cases (hdiv d).symm.trans (hd d (Nat.le_refl d))
  · intro hnone depth
    obtain ⟨w, -, heval⟩ | hw := Expr.evalWithin_yields h hd draws point depth
    · exact absurd ⟨w, heval⟩ hnone
    · exact hw

/-- `let f(a) = a + t in let t = x in f(t)`, where the two `t` of the body and of the call are not
the same. -/
def shadowedCall : Expr :=
  let name (text : String) : Ident := ⟨text, ⟨0, 0⟩⟩
  let sp : Span := ⟨0, 0⟩
  .function (name "f") [name "a"]
    (.binary .add (.reference (name "a") sp) (.reference (name "t") sp) sp)
    (.binding (name "t") (.reference (name "x") sp)
      (.call (name "f") [.reference (name "t") sp] sp) sp) sp

theorem shadowedCall_returns :
    ∃ evaluator, shadowedCall.compile = .ok evaluator ∧ evaluator.isDeterministic = true ∧
      evaluator.Returns (fun _ => 0.0) ⟨1.0, 2.0, 3.0⟩ (1.0 + 3.0) := by
  refine ⟨_, rfl, rfl, ((@compile_preserves_meaning shadowedCall _ rfl rfl _ _).1 _).2 ?_⟩
  refine .function (.binding (.coordinate .x rfl rfl) (.call rfl rfl (.cons (.bound rfl) .nil) ?_))
  exact .strict rfl (.bound rfl) (.coordinate .t rfl rfl)

end Programs

end Heightfield
