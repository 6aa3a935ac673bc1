import Heightfield.Evaluator
import Heightfield.Proofs.Compilation.Growth

/-! Compilation without its state. `Lowers` says which code an expression has in a scope, given the
function table that the whole compilation ends with; what a compilation produces is so related. -/

namespace Heightfield

mutual

/-- `random` says whether `rand` may be called. -/
inductive Lowers (table : Array Code) (random : Bool) : Scope → Expr → Code → Prop
  | number {s v sp} : Lowers table random s (.number v sp) (.const v)
  | slot {s n sp slot} (found : (s.lookup n.name).1 = some (.value slot)) :
      Lowers table random s (.reference n sp) (.frame (s.hopsTo slot))
  | coordinate {s n sp p} (free : (s.lookup n.name).1 = none)
      (found : Param.lookup? n.name = some p) : Lowers table random s (.reference n sp) (.param p)
  | constant {s n sp v} (free : (s.lookup n.name).1 = none) (other : Param.lookup? n.name = none)
      (found : Builtin.lookup? n.name = some (.constant v)) :
      Lowers table random s (.reference n sp) (.const v)
  | call {s n args sp index depth codes}
      (found : (s.lookup n.name).1 = some (.function index args.length depth))
      (parts : LowersAll table random s args codes) :
      Lowers table random s (.call n args sp) (.call index (s.depth - depth) codes)
  | math {s n arg sp f code} (free : (s.lookup n.name).1 = none)
      (other : Param.lookup? n.name = none) (found : Builtin.lookup? n.name = some (.math f))
      (part : Lowers table random s arg code) :
      Lowers table random s (.call n [arg] sp) (.math f code)
  | rand {s n sp} (allowed : random = true) : Lowers table random s (.call n [] sp) .random
  | plus {s e sp code} (part : Lowers table random s e code) :
      Lowers table random s (.unary .add .prefixed e sp) code
  | minus {s e sp code} (part : Lowers table random s e code) :
      Lowers table random s (.unary .sub .prefixed e sp) (.negate code)
  | binary {s op left right sp l r} (first : Lowers table random s left l)
      (second : Lowers table random s right r) :
      Lowers table random s (.binary op left right sp) (.binary op l r)
  | binding {s n bound body sp value inner} (first : Lowers table random s bound value)
      (second : Lowers table random (s.pushValue n.name) body inner) :
      Lowers table random s (.binding n bound body sp) (.bind value inner)
  | function {s n params body context sp index inner code} (entry : table[index]? = some inner)
      (first : Lowers table random
        ((s.pushFunction n.name index params.length).pushValues params) body inner)
      (second : Lowers table random (s.pushFunction n.name index params.length) context code) :
      Lowers table random s (.function n params body context sp) code
  | conditional {s condition positive negative sp test yes no}
      (first : Lowers table random s condition test) (second : Lowers table random s positive yes)
      (third : Lowers table random s negative no) :
      Lowers table random s (.conditional condition positive negative sp) (.branch test yes no)

inductive LowersAll (table : Array Code) (random : Bool) : Scope → List Expr → List Code → Prop
  | nil {s} : LowersAll table random s [] []
  | cons {s e es code codes} (first : Lowers table random s e code)
      (rest : LowersAll table random s es codes) :
      LowersAll table random s (e :: es) (code :: codes)

end

theorem LowersAll.length_eq {table : Array Code} {random : Bool} {s : Scope} :
    ∀ {es : List Expr} {codes : List Code}, LowersAll table random s es codes →
      codes.length = es.length
  | _, _, .nil => rfl
  | _, _, .cons _ rest => congrArg (· + 1) rest.length_eq

namespace Compilation

/-- `table` has what was added to the function table from `c` to `c'`. -/
def Holds (table : Array Code) (c c' : Compilation) : Prop :=
  ∀ i, c.functions.size ≤ i → i < c'.functions.size → table[i]? = c'.functions[i]?

namespace Holds

variable {table : Array Code} {m n : Nat} {a b c : Compilation}

theorem left (h : Holds table a c) (h₂ : Grows n b c) : Holds table a b := fun i hi hib =>
  (h i hi (by rw [h₂.size]; omega)).trans (h₂.kept i hib)

theorem right (h : Holds table a c) (h₁ : Grows m a b) : Holds table b c := fun i hi hic =>
  h i (by rw [h₁.size] at hi; omega) hic

variable {c₁ c₂ : Compilation} {name : Ident} {params : List Ident} {inner : Code}

/-- The three parts of what a function adds: its own entry, those of its body, those of its
context. -/
theorem function (h : Holds table c c₂) (h₁ : Grows m (c.inside name params) c₁)
    (h₂ : Grows n (c₁.closed c.functions.size params inner) c₂) :
    table[c.functions.size]? = some inner ∧ Holds table (c.inside name params) c₁ ∧
      Holds table (c₁.closed c.functions.size params inner) c₂ := by
  have hinside : (c.inside name params).functions.size = c.functions.size + 1 :=
    Array.size_push _
  have hsize : (c₁.closed c.functions.size params inner).functions.size = c₁.functions.size :=
    Array.size_setIfInBounds
  have hc₁ : c₁.functions.size = c.functions.size + 1 + m := by rw [h₁.size, hinside]
  have hc₂ : c₂.functions.size = c₁.functions.size + n := by rw [h₂.size, hsize]
  have hkept : ∀ i, c.functions.size ≤ i → i < c₁.functions.size →
      table[i]? = (c₁.closed c.functions.size params inner).functions[i]? := fun i hi hi₁ =>
    (h i hi (by omega)).trans (h₂.kept i (by omega))
  refine ⟨?_, fun i hi hi₁ => ?_, fun i hi hi₂ => h i (by omega) hi₂⟩
  · rw [hkept _ (Nat.le_refl _) (by omega)]
    exact Array.getElem?_setIfInBounds_self_of_lt (by omega)
  · rw [hkept i (by omega) hi₁]
    exact Array.getElem?_setIfInBounds_ne (by omega)

end Holds

variable {table : Array Code} {random : Bool}

theorem reference_lowers {n : Ident} {sp : Span} {c c' : Compilation} {code : Code}
    (h : reference n c = .ok code c') :
    Lowers table random c.scope.unmarked (.reference n sp) code := by
  obtain ⟨-, ⟨slot, hl, rfl⟩ | ⟨hl, ⟨p, hp, rfl⟩ | ⟨hp, v, hv, rfl⟩⟩⟩ := reference_ok h
  · exact .slot ((c.scope.lookup_unmarked n.name).trans hl)
  · exact .coordinate ((c.scope.lookup_unmarked n.name).trans hl) hp
  · exact .constant ((c.scope.lookup_unmarked n.name).trans hl) hp hv

theorem call_lowers {n : Ident} {args : List Expr} {sp : Span} {c c₁ c₂ c' : Compilation}
    {target : Callee} {codes : List Code} {code : Code}
    (hcallee : callee n c = .ok (target, args.length) c₁)
    (hargs : LowersAll table random c.scope.unmarked args codes)
    (hcall : callOf target codes c₂ = .ok code c')
    (hr : c'.usesRandom = true → random = true) :
    Lowers table random c.scope.unmarked (.call n args sp) code := by
  obtain ⟨-, ⟨index, depth, hl, rfl⟩ | ⟨hl, hp, ⟨f, hf, rfl, hone⟩ | ⟨-, rfl, hnil⟩⟩⟩ :=
    callee_ok hcallee
  · obtain ⟨rfl, -⟩ := by simpa [callOf] using hcall
    exact .call ((c.scope.lookup_unmarked n.name).trans hl) hargs
  · obtain ⟨arg, rfl⟩ := List.length_eq_one_iff.1 hone
    cases hargs with
    | cons first rest =>
      cases rest
      obtain ⟨rfl, -⟩ := by simpa [callOf] using hcall
      exact .math ((c.scope.lookup_unmarked n.name).trans hl) hp hf first
  · obtain rfl := List.length_eq_zero_iff.1 hnil
    simp only [callOf, bind_eq_ok] at hcall
    obtain ⟨_, c₃, hset, hcall⟩ := hcall
    cases hset
    cases hcall
    exact .rand (hr rfl)

mutual

/-- Success of `codeOf` is lowering, whatever the table holds outside of what was added. -/
theorem codeOf_lowers (e : Expr) {c c' : Compilation} {code : Code} (h : codeOf e c = .ok code c')
    (ht : Holds table c c') (hr : c'.usesRandom = true → random = true) :
    Lowers table random c.scope.unmarked e code := by
  cases e with
  | number value s =>
    obtain ⟨rfl, -⟩ := number_ok h
    exact .number
  | reference n s => exact reference_lowers h
  | call n args s =>
    obtain ⟨target, c₁, codes, c₂, hcallee, hargs, hcall⟩ := call_ok h
    have hx := callee_extends hcallee
    have hx₂ := callOf_extends hcall
    have ih := codesOf_lowers args hargs ((ht.right hx.toGrows).left hx₂.toGrows) fun hc =>
      hr (hx₂.random hc)
    rw [hx.scope] at ih
    exact call_lowers hcallee ih hcall hr
  | unary op fixity operand s =>
    obtain ⟨rfl, hop, inner, hinner, rfl⟩ := unary_ok h
    have ih := codeOf_lowers operand hinner ht hr
    obtain rfl | rfl := hop
    · exact .plus ih
    · exact .minus ih
  | binary op left right s =>
    obtain ⟨l, c₁, r, hl, hright, rfl⟩ := binary_ok h
    have hx := codeOf_extends left hl
    have hx₂ := codeOf_extends right hright
    have ih := codeOf_lowers right hright (ht.right hx.toGrows) hr
    rw [hx.scope] at ih
    exact .binary (codeOf_lowers left hl (ht.left hx₂.toGrows) fun hc => hr (hx₂.random hc)) ih
  | binding n bound body s =>
    obtain ⟨value, c₁, inner, c₂, hbound, hbody, rfl, rfl⟩ := binding_ok h
    have hx := codeOf_extends bound hbound
    have hx₂ := codeOf_extends body hbody
    have ht' : Holds table c c₂ := ht
    have hbefore : Holds table c c₁ := ht'.left hx₂.toGrows.of_under
    have hunder : Holds table (c₁.under n) c₂ := fun i hi => ht'.right hx.toGrows i hi
    have ih := codeOf_lowers body hbody hunder hr
    rw [under, Scope.unmarked_pushValue, hx.scope] at ih
    exact .binding (codeOf_lowers bound hbound hbefore fun hc => hr (hx₂.random hc)) ih
  | function n params body context s =>
    obtain ⟨-, inner, c₁, c₂, hbody, hcontext, rfl⟩ := function_ok h
    have hx := codeOf_extends body hbody
    have hx₂ := codeOf_extends context hcontext
    have ht' : Holds table c c₂ := ht
    obtain ⟨hentry, ht₁, ht₂⟩ := ht'.function hx.toGrows hx₂.toGrows
    have ih := codeOf_lowers body hbody ht₁ fun hc => hr (hx₂.random hc)
    have ih₂ := codeOf_lowers context hcontext ht₂ hr
    rw [inside, Scope.unmarked_pushValues, Scope.unmarked_pushFunction] at ih
    rw [hx.scope_closed] at ih₂
    exact .function hentry ih ih₂
  | conditional condition positive negative s =>
    obtain ⟨test, c₁, yes, c₂, no, htest, hyes, hno, rfl⟩ := conditional_ok h
    have hx := codeOf_extends condition htest
    have hx₂ := codeOf_extends positive hyes
    have hx₃ := codeOf_extends negative hno
    have ih := codeOf_lowers condition htest ((ht.left hx₃.toGrows).left hx₂.toGrows) fun hc =>
      hr (hx₃.random (hx₂.random hc))
    have ih₂ := codeOf_lowers positive hyes ((ht.left hx₃.toGrows).right hx.toGrows) fun hc =>
      hr (hx₃.random hc)
    have ih₃ := codeOf_lowers negative hno ((ht.right hx.toGrows).right hx₂.toGrows) hr
    rw [hx.scope] at ih₂
    rw [hx₂.scope, hx.scope] at ih₃
    exact .conditional ih ih₂ ih₃

theorem codesOf_lowers (es : List Expr) {c c' : Compilation} {codes : List Code}
    (h : codesOf es c = .ok codes c') (ht : Holds table c c')
    (hr : c'.usesRandom = true → random = true) :
    LowersAll table random c.scope.unmarked es codes := by
  cases es with
  | nil =>
    obtain ⟨rfl, -⟩ := codesOf_nil_ok h
    exact .nil
  | cons e es =>
    obtain ⟨first, c₁, others, hfirst, hothers, rfl⟩ := codesOf_cons_ok h
    have hx := codeOf_extends e hfirst
    have hx₂ := codesOf_extends es hothers
    have ih := codesOf_lowers es hothers (ht.right hx.toGrows) hr
    rw [hx.scope] at ih
    exact .cons (codeOf_lowers e hfirst (ht.left hx₂.toGrows) fun hc => hr (hx₂.random hc)) ih

end

end Compilation

theorem Expr.compile_eq_ok {e : Expr} {evaluator : Evaluator} : e.compile = .ok evaluator ↔
    ∃ root c, Compilation.codeOf e {} = .ok root c ∧ c.finish root = evaluator := by
  unfold Expr.compile
  cases Compilation.codeOf e {} with
  | error error c => exact ⟨nofun, nofun⟩
  | ok root c =>
    constructor
    · intro h
      exact ⟨root, c, rfl, Except.ok.inj h⟩
    · rintro ⟨_, _, h, rfl⟩
      cases h
      rfl

/-- The scope a compilation starts in is empty, and the table it ends with is the evaluator's. -/
theorem Expr.lowers_of_compile {e : Expr} {evaluator : Evaluator} (h : e.compile = .ok evaluator) :
    Lowers evaluator.program.functions evaluator.usesRandom {} e evaluator.program.root := by
  obtain ⟨root, c, hc, rfl⟩ := Expr.compile_eq_ok.1 h
  exact Compilation.codeOf_lowers e hc (fun _ _ _ => rfl) id

end Heightfield
