import Heightfield.Evaluator

/-! What an expression means, told over its names alone. `Eval` is a big-step evaluation in an
environment; it knows of no frames, no table and no code, and an evaluation that ends in no value
has no derivation. `rand` has no meaning here. -/

namespace Heightfield

/-- What the bound names around an expression stand for, the innermost first. A function is kept
with its parameters and its body. -/
inductive Env
  | empty
  | value (name : String) (v : Float) (outer : Env)
  | function (name : String) (params : List Ident) (body : Expr) (outer : Env)

/-- What one bound name stands for. The environment of a closure is that of its definition, with the
function itself as its innermost name. -/
inductive Denotation
  | value (v : Float)
  | closure (params : List Ident) (body : Expr) (definition : Env)

namespace Env

def lookup (name : String) : Env → Option Denotation
  | empty => none
  | value n v outer => if n = name then some (.value v) else outer.lookup name
  | function n params body outer =>
    if n = name then some (.closure params body (function n params body outer))
    else outer.lookup name

/-- The environment of a call: each parameter with the value of its argument. -/
def bindAll : Env → List Ident → List Float → Env
  | env, p :: ps, v :: vs => bindAll (value p.name v env) ps vs
  | env, _, _ => env

end Env

/-- Nonzero and not NaN. -/
def Truthy (v : Float) : Prop := (v == 0.0) = false ∧ v.isNaN = false

/-- The operators that need both operands. -/
def Op.strict? : Op → Option (Float → Float → Float)
  | .add => some (· + ·)
  | .sub => some (· - ·)
  | .mul => some (· * ·)
  | .div => some (· / ·)
  | .pow => some power
  | .lt => some fun l r => if l < r then 1.0 else 0.0
  | .le => some fun l r => if l ≤ r then 1.0 else 0.0
  | .gt => some fun l r => if r < l then 1.0 else 0.0
  | .ge => some fun l r => if r ≤ l then 1.0 else 0.0
  | .eq => some fun l r => if l == r then 1.0 else 0.0
  | .ne => some fun l r => if l == r then 0.0 else 1.0
  | .and | .or => none

section

variable (point : Point)

mutual

/-- `Eval point env e v`: at `point`, with its free names bound by `env`, `e` has the value `v`. -/
inductive Eval : Env → Expr → Float → Prop
  | number {env v sp} : Eval env (.number v sp) v
  | bound {env n sp v} (found : env.lookup n.name = some (.value v)) : Eval env (.reference n sp) v
  | coordinate {env n sp} (p : Param) (free : env.lookup n.name = none) (name : n.name = p.name) :
      Eval env (.reference n sp) (point.get p)
  | pi {env n sp} (free : env.lookup n.name = none) (name : n.name = "pi") :
      Eval env (.reference n sp) Builtin.pi
  | e {env n sp} (free : env.lookup n.name = none) (name : n.name = "e") :
      Eval env (.reference n sp) Builtin.e
  | call {env n args sp params body definition values v}
      (found : env.lookup n.name = some (.closure params body definition))
      (arity : args.length = params.length) (parts : EvalAll env args values)
      (result : Eval (definition.bindAll params values) body v) : Eval env (.call n args sp) v
  | math {env n arg sp v} (f : MathFunction) (free : env.lookup n.name = none)
      (name : n.name = f.name) (part : Eval env arg v) : Eval env (.call n [arg] sp) (f.apply v)
  | plus {env e sp v} (part : Eval env e v) : Eval env (.unary .add .prefixed e sp) v
  | minus {env e sp v} (part : Eval env e v) : Eval env (.unary .sub .prefixed e sp) (-v)
  | strict {env op left right sp l r f} (both : op.strict? = some f) (first : Eval env left l)
      (second : Eval env right r) : Eval env (.binary op left right sp) (f l r)
  | andDecided {env left right sp l} (first : Eval env left l) (test : ¬ Truthy l) :
      Eval env (.binary .and left right sp) l
  | andOpen {env left right sp l r} (first : Eval env left l) (test : Truthy l)
      (second : Eval env right r) : Eval env (.binary .and left right sp) r
  | orDecided {env left right sp l} (first : Eval env left l) (test : Truthy l) :
      Eval env (.binary .or left right sp) l
  | orOpen {env left right sp l r} (first : Eval env left l) (test : ¬ Truthy l)
      (second : Eval env right r) : Eval env (.binary .or left right sp) r
  | binding {env n bound body sp a v} (first : Eval env bound a)
      (second : Eval (.value n.name a env) body v) : Eval env (.binding n bound body sp) v
  | function {env n params body context sp v}
      (result : Eval (.function n.name params body env) context v) :
      Eval env (.function n params body context sp) v
  | positive {env condition positive negative sp c v} (first : Eval env condition c)
      (test : Truthy c) (second : Eval env positive v) :
      Eval env (.conditional condition positive negative sp) v
  | negative {env condition positive negative sp c v} (first : Eval env condition c)
      (test : ¬ Truthy c) (second : Eval env negative v) :
      Eval env (.conditional condition positive negative sp) v

/-- All in the same environment. -/
inductive EvalAll : Env → List Expr → List Float → Prop
  | nil {env} : EvalAll env [] []
  | cons {env e es v vs} (first : Eval env e v) (rest : EvalAll env es vs) :
      EvalAll env (e :: es) (v :: vs)

end

end

theorem EvalAll.length_eq {point : Point} {env : Env} :
    ∀ {es : List Expr} {vs : List Float}, EvalAll point env es vs → vs.length = es.length
  | _, _, .nil => rfl
  | _, _, .cons _ rest => congrArg (· + 1) rest.length_eq

/-- The evaluator has the value `v` at `point`: some depth of calls is enough to find it. A larger
depth finds it too, and where no depth is enough the evaluation calls without end. -/
def Evaluator.Returns (evaluator : Evaluator) (draws : Draws) (point : Point) (v : Float) : Prop :=
  ∃ depth, evaluator.program.evalWithin depth draws point = .ok v

/-- The calls nest without end. -/
def Evaluator.Diverges (evaluator : Evaluator) (draws : Draws) (point : Point) : Prop :=
  ∀ depth, evaluator.program.evalWithin depth draws point = .error .tooDeep

theorem truthy_iff {v : Float} : truthy v = true ↔ Truthy v := by
  simp [truthy, Truthy, bne]

theorem Param.lookup?_eq_some_iff {name : String} {p : Param} :
    Param.lookup? name = some p ↔ name = p.name := by
  constructor
  · intro h
    have hp := List.find?_some h
    exact (of_decide_eq_true hp).symm
  · rintro rfl
    cases p <;> rfl

theorem Builtin.mem_table_of_lookup? {name : String} {b : Builtin}
    (h : Builtin.lookup? name = some b) : (name, b) ∈ Builtin.table := by
  obtain ⟨l₁, l₂, hl, -⟩ := List.lookup_eq_some_iff.1 h
  rw [hl]
  exact List.mem_append_right _ List.mem_cons_self

theorem Builtin.lookup?_math_iff {name : String} {f : MathFunction} :
    Builtin.lookup? name = some (.math f) ↔ name = f.name := by
  constructor
  · intro h
    have hm := Builtin.mem_table_of_lookup? h
    simp only [Builtin.table, List.mem_append, List.mem_map, List.mem_cons, Prod.mk.injEq,
      reduceCtorEq, and_false, List.not_mem_nil, or_self, false_or, Builtin.math.injEq] at hm
    obtain ⟨g, -, hname, rfl⟩ := hm
    exact hname.symm
  · rintro rfl
    cases f <;> rfl

theorem Builtin.lookup?_constant_iff {name : String} {v : Float} :
    Builtin.lookup? name = some (.constant v) ↔
      name = "pi" ∧ v = Builtin.pi ∨ name = "e" ∧ v = Builtin.e := by
  constructor
  · intro h
    have hm := Builtin.mem_table_of_lookup? h
    simpa [Builtin.table] using hm
  · rintro (⟨rfl, rfl⟩ | ⟨rfl, rfl⟩) <;> rfl

end Heightfield
