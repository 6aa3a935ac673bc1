import Heightfield.Proofs.Compilation.Lowering
import Heightfield.Proofs.Meaning

/-! How an environment over names lies in the frames of an evaluation. Names, scope and frames grow
together, except that a function takes a name and no frame; the frames of its definition stay
reachable, since every later binding only adds frames on top. -/

namespace Heightfield

/-- `env` is what the names of a scope stand for when the frames are `frames`. A function in it has
its body's code in the table. -/
inductive Matches (table : Array Code) : Env → Scope → Frames → Prop
  | empty : Matches table .empty {} []
  | value {env s frames} (name : String) (v : Float) (outer : Matches table env s frames) :
      Matches table (.value name v env) (s.pushValue name) (v :: frames)
  | function {env s frames params body index inner} (name : String)
      (outer : Matches table env s frames) (entry : table[index]? = some inner)
      (lowers : Lowers table false ((s.pushFunction name index params.length).pushValues params)
        body inner) :
      Matches table (.function name params body env) (s.pushFunction name index params.length)
        frames

/-- What a name stands for, beside what the scope has for it: a frame that is there and holds the
value, or a table entry with the code of the body, whose definition saw the frames above `depth`. -/
inductive Located (table : Array Code) (s : Scope) (frames : Frames) :
    Option Denotation → Option Binding → Prop
  | free : Located table s frames none none
  | value {v slot} (below : slot < s.depth) (held : frames[s.hopsTo slot]? = some v) :
      Located table s frames (some (.value v)) (some (.value slot))
  | closure {params body definition s' index depth inner} (below : depth ≤ s.depth)
      (env : Matches table definition s' (frames.drop (s.depth - depth)))
      (entry : table[index]? = some inner)
      (lowers : Lowers table false (s'.pushValues params) body inner) :
      Located table s frames (some (.closure params body definition))
        (some (.function index params.length depth))

variable {table : Array Code} {env : Env} {s : Scope} {frames : Frames}

theorem Scope.hopsTo_pushValue (s : Scope) (name : String) {slot : Nat} (h : slot < s.depth) :
    (s.pushValue name).hopsTo slot = s.hopsTo slot + 1 := by
  simp only [hopsTo, pushValue]
  omega

theorem Matches.depth_eq (h : Matches table env s frames) : s.depth = frames.length := by
  induction h with
  | empty => rfl
  | value name v _ ih => simp [Scope.pushValue, ih]
  | function name _ _ _ ih => exact ih

/-- One frame more does not move what is located below it. -/
theorem Located.pushValue {d : Option Denotation} {b : Option Binding} (name : String) (v : Float)
    (h : Located table s frames d b) : Located table (s.pushValue name) (v :: frames) d b := by
  cases h with
  | free => exact .free
  | value below held =>
    refine .value (Nat.lt_succ_of_lt below) ?_
    rw [s.hopsTo_pushValue name below, List.getElem?_cons_succ]
    exact held
  | closure below env entry lowers =>
    refine .closure (Nat.le_succ_of_le below) ?_ entry lowers
    rw [Scope.pushValue, Nat.succ_sub below, List.drop_succ_cons]
    exact env

theorem Located.pushFunction {d : Option Denotation} {b : Option Binding} (name : String)
    (index arity : Nat) (h : Located table s frames d b) :
    Located table (s.pushFunction name index arity) frames d b := by
  cases h with
  | free => exact .free
  | value below held => exact .value below held
  | closure below env entry lowers => exact .closure below env entry lowers

theorem Matches.located (h : Matches table env s frames) (name : String) :
    Located table s frames (env.lookup name) (s.lookup name).1 := by
  induction h with
  | empty => exact .free
  | @value env s frames n v outer ih =>
    by_cases hn : n = name
    · simp only [Env.lookup, hn, ↓reduceIte, Scope.lookup, Scope.pushValue, decide_true,
        List.find?_cons_of_pos, Option.map_some]
      exact .value (Nat.lt_succ_self _) (by simp [Scope.hopsTo])
    · simp only [Env.lookup, hn, ↓reduceIte, Scope.lookup, Scope.pushValue, decide_false,
        Bool.false_eq_true, not_false_eq_true, List.find?_cons_of_neg]
      exact ih.pushValue n v
  | @function env s frames params body index inner n outer entry lowers ih =>
    by_cases hn : n = name
    · simp only [Env.lookup, hn, ↓reduceIte, Scope.lookup, Scope.pushFunction, decide_true,
        List.find?_cons_of_pos, Option.map_some]
      subst hn
      refine .closure (Nat.le_refl _) ?_ entry lowers
      rw [Nat.sub_self, List.drop_zero]
      exact .function n outer entry lowers
    · simp only [Env.lookup, hn, ↓reduceIte, Scope.lookup, Scope.pushFunction, decide_false,
        Bool.false_eq_true, not_false_eq_true, List.find?_cons_of_neg]
      exact ih.pushFunction n index params.length

theorem Matches.of_scope (h : Matches table env s frames) {name : String} {b : Option Binding}
    (hb : (s.lookup name).1 = b) :
    ∃ d, env.lookup name = d ∧ Located table s frames d b :=
  ⟨_, rfl, hb ▸ h.located name⟩

theorem Matches.of_env (h : Matches table env s frames) {name : String} {d : Option Denotation}
    (hd : env.lookup name = d) :
    ∃ b, (s.lookup name).1 = b ∧ Located table s frames d b :=
  ⟨_, rfl, hd ▸ h.located name⟩

/-- The frames of a call match the environment of its parameters. -/
theorem Matches.bindAll {params : List Ident} {values : List Float}
    (h : Matches table env s frames) (hlen : values.length = params.length) :
    Matches table (env.bindAll params values) (s.pushValues params)
      (Frames.ofCall values frames) := by
  induction params generalizing env s frames values with
  | nil =>
    obtain rfl := List.length_eq_zero_iff.1 hlen
    exact h
  | cons p ps ih =>
    cases values with
    | nil => cases hlen
    | cons v vs =>
      have hstep := ih (h.value p.name v) (Nat.succ.inj hlen)
      simpa [Env.bindAll, Scope.pushValues, Frames.ofCall] using hstep

end Heightfield
