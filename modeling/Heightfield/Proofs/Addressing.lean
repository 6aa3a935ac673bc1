import Heightfield.Proofs.Compilation.Lowering

/-! Which parts of an expression are compiled, in which state, and which of their codes an
evaluation runs, on which frames. A `Site` is one call of `codeOf`, a `Visit` one call of
`Code.run`; names are resolved by the binders around a site and by nothing else. -/

namespace Heightfield

/-- A function, and the state of the compilation that meets it. -/
structure Definition where
  name : Ident
  params : List Ident
  body : Expr
  before : Compilation

inductive Binder
  | value (name : String)
  | function (d : Definition)

def Binder.name : Binder → String
  | value name => name
  | function d => d.name.name

/-- The binders around a place in an expression, the innermost first. -/
abbrev Around := List Binder

/-- The innermost binder of that name, and what is around it. -/
def Around.resolve? (name : String) : Around → Option (Binder × Around)
  | [] => none
  | b :: outer => if b.name = name then some (b, outer) else resolve? name outer

/-- What is around the body of a function. -/
def Definition.within (d : Definition) (outer : Around) : Around :=
  (d.params.map fun p => .value p.name).reverse ++ .function d :: outer

/-- A part of an expression, compiled from one state to another. -/
structure Site where
  around : Around
  expr : Expr
  before : Compilation
  code : Code
  after : Compilation

/-- Where a part stands in the expression it is a part of. -/
inductive Position
  | argument (i : Nat) | operand | left | right | bound | body | inner | context
  | condition | positive | negative
deriving DecidableEq

open Compilation in
/-- The calls of `codeOf` that one call of it makes. -/
inductive Part : Position → Site → Site → Prop
  | argument {around n} (earlier : List Expr) {arg later sp c code c' target c₁ codes c₂ first c₃}
      (target : callee n c = .ok target c₁) (sofar : codesOf earlier c₁ = .ok codes c₂)
      (made : codeOf arg c₂ = .ok first c₃) :
      Part (.argument earlier.length) ⟨around, .call n (earlier ++ arg :: later) sp, c, code, c'⟩
        ⟨around, arg, c₂, first, c₃⟩
  | operand {around op fixity operand sp c code c' inner c₁}
      (made : codeOf operand c = .ok inner c₁) :
      Part .operand ⟨around, .unary op fixity operand sp, c, code, c'⟩
        ⟨around, operand, c, inner, c₁⟩
  | left {around op left right sp c code c' l c₁} (made : codeOf left c = .ok l c₁) :
      Part .left ⟨around, .binary op left right sp, c, code, c'⟩ ⟨around, left, c, l, c₁⟩
  | right {around op left right sp c code c' l c₁ r c₂} (sofar : codeOf left c = .ok l c₁)
      (made : codeOf right c₁ = .ok r c₂) :
      Part .right ⟨around, .binary op left right sp, c, code, c'⟩ ⟨around, right, c₁, r, c₂⟩
  | bound {around n bound body sp c code c' value c₁} (made : codeOf bound c = .ok value c₁) :
      Part .bound ⟨around, .binding n bound body sp, c, code, c'⟩ ⟨around, bound, c, value, c₁⟩
  | body {around n bound body sp c code c' value c₁ c₂ inner c₃}
      (sofar : codeOf bound c = .ok value c₁) (opened : openBinding n c₁ = .ok () c₂)
      (made : codeOf body c₂ = .ok inner c₃) :
      Part .body ⟨around, .binding n bound body sp, c, code, c'⟩
        ⟨.value n.name :: around, body, c₂, inner, c₃⟩
  | inner {around n params body context sp c code c' index c₁ inner c₂}
      (opened : openFunction n params c = .ok index c₁) (made : codeOf body c₁ = .ok inner c₂) :
      Part .inner ⟨around, .function n params body context sp, c, code, c'⟩
        ⟨Definition.within ⟨n, params, body, c⟩ around, body, c₁, inner, c₂⟩
  | context {around n params body context sp c code c' index c₁ inner c₂ c₃ outer c₄}
      (opened : openFunction n params c = .ok index c₁) (sofar : codeOf body c₁ = .ok inner c₂)
      (closed : closeFunction index params (.ok inner) c₂ = .ok () c₃)
      (made : codeOf context c₃ = .ok outer c₄) :
      Part .context ⟨around, .function n params body context sp, c, code, c'⟩
        ⟨.function ⟨n, params, body, c⟩ :: around, context, c₃, outer, c₄⟩
  | condition {around condition positive negative sp c code c' test c₁}
      (made : codeOf condition c = .ok test c₁) :
      Part .condition ⟨around, .conditional condition positive negative sp, c, code, c'⟩
        ⟨around, condition, c, test, c₁⟩
  | positive {around condition positive negative sp c code c' test c₁ yes c₂}
      (sofar : codeOf condition c = .ok test c₁) (made : codeOf positive c₁ = .ok yes c₂) :
      Part .positive ⟨around, .conditional condition positive negative sp, c, code, c'⟩
        ⟨around, positive, c₁, yes, c₂⟩
  | negative {around condition positive negative sp c code c' test c₁ yes c₂ no c₃}
      (sofar : codeOf condition c = .ok test c₁) (sofar' : codeOf positive c₁ = .ok yes c₂)
      (made : codeOf negative c₂ = .ok no c₃) :
      Part .negative ⟨around, .conditional condition positive negative sp, c, code, c'⟩
        ⟨around, negative, c₂, no, c₃⟩

/-- All calls of `codeOf` that the compilation of `root` makes. -/
inductive Compiled (root : Expr) : Site → Prop
  | root {code c} (made : Compilation.codeOf root {} = .ok code c) :
      Compiled root ⟨[], root, {}, code, c⟩
  | part {position s s'} (whole : Compiled root s) (part : Part position s s') : Compiled root s'

section

variable (program : Program) (draws : Draws) (point : Point)

/-- The calls of `Code.run` that one call of it makes, on its own or on other frames, after `n`
draws or after more. The body of a called function is not among them. -/
inductive Runs (depth : Nat) : Position → Code → Frames → Nat → Code → Frames → Nat → Prop
  | argument {index hops earlier code later frames n values n'}
      (sofar : Code.runAll draws point (program.enter draws point depth) earlier frames n =
        .ok values n') :
      Runs depth (.argument earlier.length) (.call index hops (earlier ++ code :: later)) frames n
        code frames n'
  | only {f code frames n} : Runs depth (.argument 0) (.math f code) frames n code frames n
  | operand {code frames n} : Runs depth .operand (.negate code) frames n code frames n
  | left {op l r frames n} : Runs depth .left (.binary op l r) frames n l frames n
  | right {op l r frames n v n'}
      (sofar : l.run draws point (program.enter draws point depth) frames n = .ok v n')
      (needed : op.decided? v = none) : Runs depth .right (.binary op l r) frames n r frames n'
  | bound {value inner frames n} : Runs depth .bound (.bind value inner) frames n value frames n
  | body {value inner frames n v n'}
      (sofar : value.run draws point (program.enter draws point depth) frames n = .ok v n') :
      Runs depth .body (.bind value inner) frames n inner (v :: frames) n'
  | condition {test yes no frames n} :
      Runs depth .condition (.branch test yes no) frames n test frames n
  | positive {test yes no frames n v n'}
      (sofar : test.run draws point (program.enter draws point depth) frames n = .ok v n')
      (chosen : truthy v = true) : Runs depth .positive (.branch test yes no) frames n yes frames n'
  | negative {test yes no frames n v n'}
      (sofar : test.run draws point (program.enter draws point depth) frames n = .ok v n')
      (chosen : truthy v = false) : Runs depth .negative (.branch test yes no) frames n no frames n'

/-- All calls of `Code.run` that an evaluation makes, each with the site its code comes from: the
number of calls still allowed, the site, the frames, and how many numbers were drawn before. -/
inductive Visit (root : Expr) : Nat → Site → Frames → Nat → Prop
  | root {depth code c} (made : Compilation.codeOf root {} = .ok code c) :
      Visit root depth ⟨[], root, {}, code, c⟩ [] 0
  | part {depth position s s' frames n frames' n'} (whole : Visit root depth s frames n)
      (part : Part position s s') (run : Runs program draws point depth position s.code frames n
        s'.code frames' n') : Visit root depth s' frames' n'
  /-- The code of a function is that of its context, and a plus leaves no code. -/
  | same {depth position s s' frames n} (whole : Visit root depth s frames n)
      (part : Part position s s') (position : position = .context ∨ position = .operand)
      (code : s'.code = s.code) : Visit root depth s' frames n
  | enter {depth around name args sp c index hops codes c' frames n values n' d outer slot c₁ inner
      c₂}
      (whole : Visit root (depth + 1)
        ⟨around, .call name args sp, c, .call index hops codes, c'⟩ frames n)
      (sofar : Code.runAll draws point (program.enter draws point (depth + 1)) codes frames n =
        .ok values n')
      (resolved : Around.resolve? name.name around = some (.function d, outer))
      (opened : Compilation.openFunction d.name d.params d.before = .ok slot c₁)
      (made : Compilation.codeOf d.body c₁ = .ok inner c₂) :
      Visit root depth ⟨d.within outer, d.body, c₁, inner, c₂⟩
        (Frames.ofCall values (frames.drop hops)) n'

end

/-- A lookup at the site counts down from the depth of the scope to no less than zero. -/
structure Site.Counts (s : Site) : Prop where
  value : ∀ {n sp slot}, s.expr = .reference n sp →
    (s.before.scope.lookup n.name).1 = some (.value slot) → slot < s.before.scope.depth
  function : ∀ {n args sp index arity depth}, s.expr = .call n args sp →
    (s.before.scope.lookup n.name).1 = some (.function index arity depth) →
      depth ≤ s.before.scope.depth

/-- `d` is met at a site of the compilation of `root`, with `outer` around it. -/
def Definition.Met (d : Definition) (root : Expr) (outer : Around) : Prop :=
  ∃ s context sp, Compiled root s ∧ s.around = outer ∧ s.before = d.before ∧
    s.expr = .function d.name d.params d.body context sp

/-- The entry at `index` is the compiled body of `d`. -/
def Definition.Stored (d : Definition) (program : Program) (index : Nat) : Prop :=
  ∃ slot c inner c', Compilation.openFunction d.name d.params d.before = .ok slot c ∧
    Compilation.codeOf d.body c = .ok inner c' ∧ program.functions[index]? = some inner

/-- What the code of a site addresses in `frames` is there, and it is what the names of the site
stand for. -/
structure Site.Addresses (root : Expr) (program : Program) (s : Site) (frames : Frames) : Prop where
  depth : frames.length = s.before.scope.depth
  value : ∀ {hops}, s.code = .frame hops → hops < frames.length
  function : ∀ {n args sp index hops codes}, s.expr = .call n args sp →
    s.code = .call index hops codes → ∃ d outer,
      s.around.resolve? n.name = some (.function d, outer) ∧ d.Met root outer ∧
      hops ≤ frames.length ∧ (frames.drop hops).length = d.before.scope.depth ∧
      d.Stored program index

end Heightfield
