import Heightfield.Proofs.Expr.Names

/-! Expressions that differ in binders nothing uses, but in nothing else. -/

namespace Heightfield

mutual

/-- `Akin e e'`: the same, but for values and functions that `e` binds and does not use, and for
functions that only `e'` binds. -/
inductive Akin : Expr → Expr → Prop
  | node {e e'} (node : AkinNode e e') : Akin e e'
  | more {e n params body context sp} (unused : n.name ∉ e.freeNames) (rest : Akin e context) :
      Akin e (.function n params body context sp)

/-- The same, where `e'` does not start with a function of its own. -/
inductive AkinNode : Expr → Expr → Prop
  | number {v sp} : AkinNode (.number v sp) (.number v sp)
  | reference {n sp} : AkinNode (.reference n sp) (.reference n sp)
  | call {n args args' sp} (parts : AkinAll args args') :
      AkinNode (.call n args sp) (.call n args' sp)
  | unary {op fixity e e' sp} (part : Akin e e') :
      AkinNode (.unary op fixity e sp) (.unary op fixity e' sp)
  | binary {op left left' right right' sp} (first : Akin left left')
      (second : Akin right right') :
      AkinNode (.binary op left right sp) (.binary op left' right' sp)
  | binding {n bound bound' body body' sp} (first : Akin bound bound')
      (second : Akin body body') :
      AkinNode (.binding n bound body sp) (.binding n bound' body' sp)
  | function {n params body body' context context' sp} (first : Akin body body')
      (second : Akin context context') :
      AkinNode (.function n params body context sp) (.function n params body' context' sp)
  | conditional {condition condition' positive positive' negative negative' sp}
      (first : Akin condition condition') (second : Akin positive positive')
      (third : Akin negative negative') :
      AkinNode (.conditional condition positive negative sp)
        (.conditional condition' positive' negative' sp)
  | lessValue {n bound body sp e'} (unused : n.name ∉ body.freeNames) (rest : Akin body e') :
      AkinNode (.binding n bound body sp) e'
  | lessFunction {n params body context sp e'} (unused : n.name ∉ context.freeNames)
      (rest : Akin context e') : AkinNode (.function n params body context sp) e'

inductive AkinAll : List Expr → List Expr → Prop
  | nil : AkinAll [] []
  | cons {e e' es es'} (first : Akin e e') (rest : AkinAll es es') :
      AkinAll (e :: es) (e' :: es')

end

theorem AkinAll.length_eq : ∀ {es es' : List Expr}, AkinAll es es' → es'.length = es.length
  | _, _, .nil => rfl
  | _, _, .cons _ rest => congrArg (· + 1) rest.length_eq

mutual

theorem Akin.refl : ∀ e : Expr, Akin e e
  | .number _ _ => .node .number
  | .reference _ _ => .node .reference
  | .call _ args _ => .node (.call (AkinAll.refl args))
  | .unary _ _ operand _ => .node (.unary (Akin.refl operand))
  | .binary _ left right _ => .node (.binary (Akin.refl left) (Akin.refl right))
  | .binding _ bound body _ => .node (.binding (Akin.refl bound) (Akin.refl body))
  | .function _ _ body context _ => .node (.function (Akin.refl body) (Akin.refl context))
  | .conditional condition positive negative _ =>
    .node (.conditional (Akin.refl condition) (Akin.refl positive) (Akin.refl negative))

theorem AkinAll.refl : ∀ es : List Expr, AkinAll es es
  | [] => .nil
  | e :: es => .cons (Akin.refl e) (AkinAll.refl es)

end

section

variable {e e' : Expr}

theorem AkinAll.middle (h : Akin e e') (earlier later : List Expr) :
    AkinAll (earlier ++ e :: later) (earlier ++ e' :: later) := by
  induction earlier with
  | nil => exact .cons h (AkinAll.refl later)
  | cons a earlier ih => exact .cons (Akin.refl a) ih

theorem Akin.plug (h : Akin e e') (layer : Layer) : Akin (layer.plug e) (layer.plug e') := by
  refine .node ?_
  cases layer with
  | argument n earlier later s => exact .call (AkinAll.middle h earlier later)
  | operand op fixity s => exact .unary h
  | left op right s => exact .binary h (Akin.refl right)
  | right op left s => exact .binary (Akin.refl left) h
  | bound n body s => exact .binding h (Akin.refl body)
  | body n bound s => exact .binding (Akin.refl bound) h
  | inner n params context s => exact .function h (Akin.refl context)
  | context n params body s => exact .function (Akin.refl body) h
  | condition positive negative s =>
    exact .conditional h (Akin.refl positive) (Akin.refl negative)
  | positive condition negative s =>
    exact .conditional (Akin.refl condition) h (Akin.refl negative)
  | negative condition positive s =>
    exact .conditional (Akin.refl condition) (Akin.refl positive) h

theorem Akin.fill (h : Akin e e') (C : Context) : Akin (C.fill e) (C.fill e') := by
  induction C with
  | nil => exact h
  | cons layer C ih => exact ih.plug layer

end

end Heightfield
