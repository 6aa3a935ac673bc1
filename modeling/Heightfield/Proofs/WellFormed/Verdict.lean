import Heightfield.Proofs.Compilation.Lowering
import Heightfield.Proofs.WellFormed.Faults

/-! A compilation stops at the first of the faults. The one scope it changes on its way is, whenever
a part is compiled, the scope of the names around that part; this carries the induction. -/

namespace Heightfield

def Binding.sense : Binding → Sense
  | .value _ => .value
  | .function _ arity _ => .function arity

namespace Scope

/-- The names of a scope. -/
def senses (s : Scope) : Names := s.entries.map fun e => (e.name, e.binding.sense)

variable (s : Scope)

theorem senses_lookup (name : String) :
    s.senses.lookup name = (s.lookup name).1.map Binding.sense := by
  obtain ⟨entries, depth⟩ := s
  unfold senses lookup
  induction entries with
  | nil => rfl
  | cons e entries ih =>
    by_cases he : e.name = name
    · subst he
      simp
    · have hne : (name == e.name) = false := beq_eq_false_iff_ne.2 (Ne.symm he)
      simpa [List.lookup_cons, hne, he] using ih

theorem senses_unmarked : s.unmarked.senses = s.senses := by
  unfold senses unmarked
  simp only [List.map_map]
  rfl

theorem senses_eq {s s' : Scope} (h : s'.unmarked = s.unmarked) : s'.senses = s.senses := by
  rw [← senses_unmarked s', h, senses_unmarked]

theorem senses_pushValue (n : Ident) : (s.pushValue n.name).senses = s.senses.bind n := rfl

theorem senses_pushFunction (n : Ident) (index : Nat) (params : List Ident) :
    (s.pushFunction n.name index params.length).senses = s.senses.define n params := rfl

theorem senses_pushValues (ps : List Ident) :
    (s.pushValues ps).senses = (ps.map fun p => (p.name, .value)).reverse ++ s.senses := by
  induction ps generalizing s with
  | nil => rfl
  | cons p ps ih =>
    have h := ih (s.pushValue p.name)
    rw [senses_pushValue] at h
    simp only [List.map_cons, List.reverse_cons, List.append_assoc]
    exact h

theorem names_eq : s.names = (s.senses.map (·.1)).reverse := by
  unfold names senses
  rw [List.map_map]
  rfl

end Scope

namespace Compilation

/-- What a step failed with. -/
def failure? {α : Type} : EStateM.Result CompileError Compilation α → Option CompileError
  | .ok _ _ => none
  | .error e _ => some e

section

variable {α β : Type} {x : Compile α} {c : Compilation} {first later : List CompileError}

/-- The faults of what runs first come first, and what runs later runs in the state it leaves. -/
theorem failure?_bind {f : α → Compile β} (hx : failure? (x c) = first.head?)
    (hf : ∀ a c', x c = .ok a c' → failure? (f a c') = later.head?) :
    failure? ((x >>= f) c) = (first ++ later).head? := by
  rw [bind_apply, List.head?_append]
  cases hr : x c with
  | ok a c' =>
    rw [hr] at hx
    rw [← hx]
    exact hf a c' hr
  | error e c' =>
    rw [hr] at hx
    rw [← hx]
    rfl

theorem failure?_last {f : α → Compile β} (hx : failure? (x c) = first.head?)
    (hf : ∀ a c', failure? (f a c') = none) : failure? ((x >>= f) c) = first.head? := by
  rw [failure?_bind hx fun a c' _ => (hf a c').trans List.head?_nil.symm, List.append_nil]

/-- A scope that is left whether or not its inside fails hides no failure of it. -/
theorem failure?_scoped {k : Bool → α → Compile β} (hx : failure? (x c) = first.head?)
    (hk : ∀ used a c', failure? (k used a c') = none) :
    failure? ((do
      let inner ← attempt x
      let used ← leave
      let inner ← settle inner
      k used inner) c) = first.head? := by
  rw [← hx]
  cases hr : x c with
  | ok a c' =>
    rw [scoped_ok hr]
    exact hk _ _ _
  | error e c' =>
    rw [scoped_error hr]
    rfl

end

variable (c : Compilation)

theorem sense?_senses (name : String) : c.scope.senses.sense? name =
    ((c.scope.lookup name).1.map Binding.sense).or
      (((Param.lookup? name).map fun _ => .value).or
        ((Builtin.lookup? name).map Builtin.sense)) := by
  unfold Names.sense?
  rw [Scope.senses_lookup]

theorem failure?_unresolved {α : Type} (n : Ident) :
    failure? ((unresolved n : Compile α) { c with scope := (c.scope.lookup n.name).2 }) =
      some (c.scope.senses.unresolved n) := by
  rw [unresolved_apply, candidates, Scope.names_lookup, Scope.names_eq]
  rfl

theorem failure?_reference (n : Ident) :
    failure? (reference n c) = (c.scope.senses.referenceFaults n).head? := by
  simp only [reference, bind_apply, lookup_apply, Names.referenceFaults, sense?_senses]
  cases hl : (c.scope.lookup n.name).1 with
  | some b => cases b <;> rfl
  | none =>
    cases hp : Param.lookup? n.name with
    | some p => rfl
    | none =>
      cases hb : Builtin.lookup? n.name with
      | some b => cases b <;> rfl
      | none => exact failure?_unresolved c n

theorem sense?_of_callee {n : Ident} {target : Callee} {arity : Nat} {c c' : Compilation}
    (h : callee n c = .ok (target, arity) c') :
    c.scope.senses.sense? n.name = some (.function arity) := by
  rw [sense?_senses]
  obtain ⟨-, ⟨index, depth, hl, -⟩ | ⟨hl, hp, ⟨f, hf, -, rfl⟩ | ⟨hr, -, rfl⟩⟩⟩ := callee_ok h
  · rw [hl]
    rfl
  · rw [hl, hp, hf]
    rfl
  · rw [hl, hp, hr]
    rfl

/-- A name that cannot be called is at fault whatever it is called with. -/
theorem calleeFaults_of_callee {n : Ident} {e : CompileError} {c c' : Compilation}
    (h : callee n c = .error e c') (found : Nat) (span : Span) :
    c.scope.senses.calleeFaults n found span = [e] := by
  simp only [callee, bind_apply, lookup_apply] at h
  simp only [Names.calleeFaults, sense?_senses]
  cases hl : (c.scope.lookup n.name).1 with
  | some b =>
    cases b with
    | value slot =>
      obtain ⟨rfl, -⟩ := by simpa [hl] using h
      rfl
    | function => simp [hl, bind_apply] at h
  | none =>
    cases hp : Param.lookup? n.name with
    | some p =>
      obtain ⟨rfl, -⟩ := by simpa [hl, hp] using h
      rfl
    | none =>
      cases hb : Builtin.lookup? n.name with
      | some b =>
        cases b with
        | constant v =>
          obtain ⟨rfl, -⟩ := by simpa [hl, hp, hb] using h
          rfl
        | math f => simp [hl, hp, hb] at h
        | random => simp [hl, hp, hb] at h
      | none =>
        have hu := failure?_unresolved (α := Callee × Nat) c n
        simp only [hl, hp, hb, Option.isSome_none, Bool.false_eq_true, ↓reduceIte] at h
        rw [h] at hu
        rw [Option.some.inj hu]
        rfl

theorem failure?_callOf (target : Callee) (codes : List Code) :
    failure? (callOf target codes c) = none := by
  cases target <;> rfl

theorem head?_parameterFaults (ps : List Ident) (earlier : List String) :
    (parameterFaults ps earlier).head? =
      (repeated? ps earlier).map fun p => .duplicateParameter p.name p.span := by
  induction ps generalizing earlier with
  | nil => rfl
  | cons p ps ih =>
    unfold parameterFaults repeated?
    by_cases hp : p.name ∈ earlier
    · simp [hp]
    · simpa [hp] using ih (p.name :: earlier)

theorem repeated?_eq_none {ps : List Ident} :
    repeated? ps [] = none ↔ (ps.map (·.name)).Nodup := by
  rw [← Option.map_eq_none_iff, ← head?_parameterFaults, List.head?_eq_none_iff,
    parameterFaults_eq_nil]
  exact and_iff_left fun _ _ => List.not_mem_nil

/-- Compiled in any state, `e` fails with the first of its faults there, and only with that. -/
def Judged (e : Expr) : Prop :=
  ∀ c, failure? (codeOf e c) = (e.faults c.scope.senses).head?

def JudgedAll (es : List Expr) : Prop :=
  ∀ c, failure? (codesOf es c) = (Expr.faultsAll es c.scope.senses).head?

theorem senses_codeOf {e : Expr} {code : Code} {c c' : Compilation}
    (h : codeOf e c = .ok code c') : c'.scope.senses = c.scope.senses :=
  Scope.senses_eq (codeOf_extends e h).scope

theorem senses_inside (c : Compilation) (n : Ident) (params : List Ident) :
    (c.inside n params).scope.senses = c.scope.senses.enter n params :=
  Scope.senses_pushValues _ params

/-- The context of a function is compiled with the names around it and that of the function. -/
theorem senses_closed {body : Expr} {n : Ident} {params : List Ident} {inner : Code}
    {c c₁ : Compilation} (h : codeOf body (c.inside n params) = .ok inner c₁) :
    (c₁.closed c.functions.size params inner).scope.senses = c.scope.senses.define n params := by
  rw [← Scope.senses_pushFunction c.scope n c.functions.size params]
  exact Scope.senses_eq ((codeOf_extends body h).scope_closed c.functions.size inner)

theorem Judged.number (v : Float) (sp : Span) : Judged (.number v sp) := fun _ => rfl

theorem Judged.reference (n : Ident) (sp : Span) : Judged (.reference n sp) := fun c =>
  failure?_reference c n

theorem JudgedAll.call {args : List Expr} (hargs : JudgedAll args) (n : Ident) (sp : Span) :
    Judged (.call n args sp) := by
  intro c
  rw [codeOf_call_eq, Expr.faults]
  cases hr : callee n c with
  | error e c₁ =>
    rw [calleeFaults_of_callee hr, bind_apply, hr]
    rfl
  | ok r c₁ =>
    obtain ⟨target, arity⟩ := r
    have hs : c₁.scope.senses = c.scope.senses := Scope.senses_eq (callee_extends hr).scope
    rw [bind_apply, hr]
    unfold Names.calleeFaults
    rw [sense?_of_callee hr]
    by_cases harity : args.length = arity
    · simp only [harity, ne_eq, not_true_eq_false, ↓reduceIte, List.nil_append]
      rw [← hs]
      exact failure?_last (hargs c₁) fun codes c₂ => failure?_callOf c₂ target codes
    · simp only [harity, ne_eq, not_false_eq_true, ↓reduceIte]
      rfl

theorem Judged.unary {operand : Expr} (h : Judged operand) (op : Op) (fixity : Fixity)
    (sp : Span) : Judged (.unary op fixity operand sp) := by
  intro c
  rw [codeOf_unary_eq, Expr.faults, operatorFaults]
  by_cases hop : fixity = .prefixed ∧ (op = .add ∨ op = .sub)
  · rw [if_pos hop, if_pos hop]
    exact failure?_last (h c) fun _ _ => rfl
  · rw [if_neg hop, if_neg hop]
    rfl

theorem Judged.binary {left right : Expr} (hl : Judged left) (hr : Judged right) (op : Op)
    (sp : Span) : Judged (.binary op left right sp) := by
  intro c
  rw [codeOf_binary_eq, Expr.faults]
  refine failure?_bind (hl c) fun l c₁ h₁ => ?_
  rw [← senses_codeOf h₁]
  exact failure?_last (hr c₁) fun _ _ => rfl

theorem Judged.conditional {condition positive negative : Expr} (hc : Judged condition)
    (hp : Judged positive) (hn : Judged negative) (sp : Span) :
    Judged (.conditional condition positive negative sp) := by
  intro c
  rw [codeOf_conditional_eq, Expr.faults]
  rw [List.append_assoc]
  refine failure?_bind (hc c) fun test c₁ h₁ => ?_
  rw [← senses_codeOf h₁]
  refine failure?_bind (hp c₁) fun yes c₂ h₂ => ?_
  rw [← senses_codeOf h₂]
  exact failure?_last (hn c₂) fun _ _ => rfl

theorem Judged.binding {bound body : Expr} (hbound : Judged bound) (hbody : Judged body)
    (n : Ident) (sp : Span) : Judged (.binding n bound body sp) := by
  intro c
  rw [codeOf_binding_eq, Expr.faults]
  refine failure?_bind (hbound c) fun value c₁ h₁ => ?_
  rw [← senses_codeOf h₁, bind_apply, openBinding_apply]
  refine failure?_scoped (hbody (c₁.under n)) fun used inner c₂ => ?_
  cases used <;> rfl

theorem Judged.function {body context : Expr} (hbody : Judged body) (hcontext : Judged context)
    (n : Ident) (params : List Ident) (sp : Span) :
    Judged (.function n params body context sp) := by
  intro c
  rw [codeOf_function_eq, Expr.faults]
  have hparams := head?_parameterFaults params []
  cases hrep : repeated? params [] with
  | some p =>
    rw [hrep] at hparams
    rw [List.append_assoc, List.head?_append, hparams]
    rfl
  | none =>
    rw [hrep] at hparams
    rw [List.head?_eq_none_iff.1 hparams, List.nil_append]
    simp only
    have hb := hbody (c.inside n params)
    rw [senses_inside] at hb
    rw [bind_of_ok (openFunction_apply c n params)]
    cases hr : codeOf body (c.inside n params) with
    | error e c₁ =>
      rw [hr] at hb
      rw [closing_error _ params hr, List.head?_append, ← hb]
      rfl
    | ok inner c₁ =>
      rw [hr] at hb
      rw [closing_ok _ params hr, List.head?_append, ← hb, ← senses_closed hr]
      refine failure?_scoped (hcontext _) fun used outer c₂ => ?_
      cases used <;> rfl

mutual

theorem judged : ∀ e : Expr, Judged e
  | .number v sp => .number v sp
  | .reference n sp => .reference n sp
  | .call n args sp => (judgedAll args).call n sp
  | .unary op fixity operand sp => (judged operand).unary op fixity sp
  | .binary op left right sp => (judged left).binary (judged right) op sp
  | .binding n bound body sp => (judged bound).binding (judged body) n sp
  | .function n params body context sp => (judged body).function (judged context) n params sp
  | .conditional condition positive negative sp =>
    (judged condition).conditional (judged positive) (judged negative) sp

theorem judgedAll : ∀ es : List Expr, JudgedAll es
  | [] => fun _ => rfl
  | e :: es => fun c => by
    rw [codesOf_cons_eq, Expr.faultsAll]
    refine failure?_bind (judged e c) fun code c₁ h₁ => ?_
    rw [← senses_codeOf h₁]
    exact failure?_last (judgedAll es c₁) fun _ _ => rfl

end

end Compilation

theorem Expr.compile_isOk_iff (e : Expr) :
    (∃ evaluator, e.compile = .ok evaluator) ↔ WellFormed [] e := by
  have hfailure : Compilation.failure? (Compilation.codeOf e {}) = (e.faults []).head? :=
    Compilation.judged e {}
  rw [← Expr.faults_eq_nil e [], ← List.head?_eq_none_iff, ← hfailure]
  unfold Expr.compile
  cases Compilation.codeOf e {} with
  | ok root c => exact ⟨fun _ => rfl, fun _ => ⟨_, rfl⟩⟩
  | error e c => exact ⟨fun ⟨_, h⟩ => (nomatch h), nofun⟩

theorem Expr.head?_faults_of_compile {e : Expr} {err : CompileError}
    (h : e.compile = .error err) : (e.faults []).head? = some err := by
  have hfailure : Compilation.failure? (Compilation.codeOf e {}) = (e.faults []).head? :=
    Compilation.judged e {}
  unfold compile at h
  cases hc : Compilation.codeOf e {} with
  | ok root c => simp [hc] at h
  | error err' c =>
    rw [hc] at h hfailure
    cases h
    exact hfailure.symm

theorem Expr.mem_faults_of_compile {e : Expr} {err : CompileError} (h : e.compile = .error err) :
    err ∈ e.faults [] := List.mem_of_mem_head? (head?_faults_of_compile h)

/-- A tree has code exactly if it is well-formed, and it has none for the first of its faults. -/
theorem compile_accepts_wellFormed (e : Expr) :
    ((∃ evaluator, e.compile = .ok evaluator) ↔ WellFormed [] e) ∧
      ∀ err, e.compile = .error err ↔ (e.faults []).head? = some err := by
  have hfailure : Compilation.failure? (Compilation.codeOf e {}) = (e.faults []).head? :=
    Compilation.judged e {}
  rw [← Expr.faults_eq_nil e [], ← List.head?_eq_none_iff, ← hfailure]
  unfold Expr.compile
  cases Compilation.codeOf e {} with
  | ok root c =>
    refine ⟨⟨fun _ => rfl, fun _ => ⟨_, rfl⟩⟩, fun err => ⟨?_, ?_⟩⟩
    · intro h
      cases h
    · intro h
      cases h
  | error e c =>
    refine ⟨⟨?_, ?_⟩, fun err => ⟨?_, ?_⟩⟩
    · rintro ⟨evaluator, h⟩
      cases h
    · intro h
      cases h
    · intro h
      cases h
      rfl
    · intro h
      cases h
      rfl

/-- `sin(sin, t(x))` has three faults; the count of the arguments comes before what they are. -/
example :
    (Expr.call ⟨"sin", ⟨0, 3⟩⟩ [.reference ⟨"sin", ⟨4, 7⟩⟩ ⟨4, 7⟩,
      .call ⟨"t", ⟨9, 10⟩⟩ [.reference ⟨"x", ⟨11, 12⟩⟩ ⟨11, 12⟩] ⟨9, 13⟩] ⟨0, 14⟩).faults [] =
      [.arityMismatch "sin" 1 2 ⟨0, 14⟩, .notAValue "sin" ⟨4, 7⟩, .notCallable "t" ⟨9, 10⟩] := by
  decide +kernel

end Heightfield
