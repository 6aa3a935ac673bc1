import Heightfield.Proofs.Addressing

/-! The scope in which a site is compiled, told by the binders around it. -/

namespace Heightfield

namespace Scope

theorem lookup_pushValue (s : Scope) (n name : String) :
    ((s.pushValue n).lookup name).1 = if n = name then some (.value s.depth)
      else (s.lookup name).1 := by
  by_cases h : n = name <;> simp [lookup, pushValue, h]

theorem lookup_pushFunction (s : Scope) (n name : String) (index arity : Nat) :
    ((s.pushFunction n index arity).lookup name).1 =
      if n = name then some (.function index arity s.depth) else (s.lookup name).1 := by
  by_cases h : n = name <;> simp [lookup, pushFunction, h]

theorem pushValues_depth (s : Scope) (params : List Ident) :
    (s.pushValues params).depth = s.depth + params.length := by
  induction params generalizing s with
  | nil => rfl
  | cons p ps ih =>
    have hp : (s.pushValues (p :: ps)).depth = s.depth + 1 + ps.length := ih (s.pushValue p.name)
    rw [hp, List.length_cons]
    omega

end Scope

/-- How many of the binders take a frame. -/
def Around.values : Around → Nat
  | [] => 0
  | .value _ :: outer => values outer + 1
  | .function _ :: outer => values outer

/-- The table holds what the body of `d` was compiled to, and what was compiled with it. -/
structure Definition.Ready (d : Definition) (root : Expr) (table : Array Code) (outer : Around) :
    Prop where
  met : d.Met root outer
  entry : ∃ inner c, Compilation.codeOf d.body (d.before.inside d.name d.params) = .ok inner c ∧
    table[d.before.functions.size]? = some inner ∧
    Compilation.Holds table (d.before.inside d.name d.params) c

/-- `s` is the scope of a place with `around` around it. -/
inductive Fits (root : Expr) (table : Array Code) : Around → Scope → Prop
  | nil : Fits root table [] {}
  | value {around s} (name : String) (outer : Fits root table around s) :
      Fits root table (.value name :: around) (s.pushValue name)
  | function {around s} (d : Definition) (outer : Fits root table around s)
      (here : d.before.scope.unmarked = s) (ready : d.Ready root table around) :
      Fits root table (.function d :: around)
        (s.pushFunction d.name.name d.before.functions.size d.params.length)

/-- What a name resolves to, beside what the scope has for it. -/
inductive Resolves (root : Expr) (table : Array Code) (s : Scope) :
    Option (Binder × Around) → Option Binding → Prop
  | free : Resolves root table s none none
  | value {name outer slot} (below : slot < s.depth) :
      Resolves root table s (some (.value name, outer)) (some (.value slot))
  | function {d outer} (below : d.before.scope.depth ≤ s.depth)
      (fits : Fits root table outer d.before.scope.unmarked) (ready : d.Ready root table outer) :
      Resolves root table s (some (.function d, outer))
        (some (.function d.before.functions.size d.params.length d.before.scope.depth))

variable {root : Expr} {table : Array Code} {around : Around} {s : Scope}

/-- What is resolved further out stays so in a deeper scope. -/
theorem Resolves.deeper {s' : Scope} {b : Option (Binder × Around)} {binding : Option Binding}
    (h : Resolves root table s b binding) (hdepth : s.depth ≤ s'.depth) :
    Resolves root table s' b binding := by
  cases h with
  | free => exact .free
  | value below => exact .value (Nat.lt_of_lt_of_le below hdepth)
  | function below fits ready => exact .function (Nat.le_trans below hdepth) fits ready

theorem Fits.resolves (h : Fits root table around s) (name : String) :
    Resolves root table s (around.resolve? name) (s.lookup name).1 := by
  induction h with
  | nil => exact .free
  | @value around s n outer ih =>
    rw [Around.resolve?, Scope.lookup_pushValue]
    by_cases hn : n = name
    · rw [if_pos hn, if_pos (show (Binder.value n).name = name from hn)]
      exact .value (Nat.lt_succ_self s.depth)
    · rw [if_neg hn, if_neg (show ¬ (Binder.value n).name = name from hn)]
      exact ih.deeper (Nat.le_succ s.depth)
  | @function around s d outer here ready ih =>
    rw [Around.resolve?, Scope.lookup_pushFunction]
    by_cases hn : d.name.name = name
    · rw [if_pos hn, if_pos (show (Binder.function d).name = name from hn)]
      subst here
      exact .function (Nat.le_refl _) outer ready
    · rw [if_neg hn, if_neg (show ¬ (Binder.function d).name = name from hn)]
      exact ih.deeper (Nat.le_refl s.depth)

/-- The depth of a scope counts the values around. -/
theorem Fits.depth_eq (h : Fits root table around s) : s.depth = around.values := by
  induction h with
  | nil => rfl
  | value name _ ih => exact congrArg (· + 1) ih
  | function d _ _ _ ih => exact ih

theorem Fits.values (h : Fits root table around s) (params : List Ident) :
    Fits root table ((params.map fun p => .value p.name).reverse ++ around)
      (s.pushValues params) := by
  induction params generalizing around s with
  | nil => exact h
  | cons p ps ih =>
    have hp := ih (h.value p.name)
    rw [List.map_cons, List.reverse_cons, List.append_assoc]
    exact hp

/-- The body of a function is compiled under its name and its parameters. -/
theorem Fits.within {d : Definition} {outer : Around}
    (h : Fits root table outer d.before.scope.unmarked) (ready : d.Ready root table outer) :
    Fits root table (d.within outer) (d.before.inside d.name d.params).scope.unmarked := by
  rw [Compilation.inside, Scope.unmarked_pushValues, Scope.unmarked_pushFunction]
  exact (h.function d rfl ready).values d.params

end Heightfield
