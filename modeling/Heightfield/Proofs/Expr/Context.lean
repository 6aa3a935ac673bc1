import Heightfield.Expr

/-! Expressions with one part left out. -/

namespace Heightfield

/-- A node without one of its parts. -/
inductive Layer
  | argument (callee : Ident) (earlier later : List Expr) (span : Span)
  | operand (op : Op) (fixity : Fixity) (span : Span)
  | left (op : Op) (right : Expr) (span : Span)
  | right (op : Op) (left : Expr) (span : Span)
  | bound (name : Ident) (body : Expr) (span : Span)
  | body (name : Ident) (bound : Expr) (span : Span)
  | inner (name : Ident) (params : List Ident) (context : Expr) (span : Span)
  | context (name : Ident) (params : List Ident) (body : Expr) (span : Span)
  | condition (positive negative : Expr) (span : Span)
  | positive (condition negative : Expr) (span : Span)
  | negative (condition positive : Expr) (span : Span)

/-- The node with `e` for the part left out. -/
def Layer.plug : Layer → Expr → Expr
  | .argument n earlier later s, e => .call n (earlier ++ e :: later) s
  | .operand op fixity s, e => .unary op fixity e s
  | .left op b s, e => .binary op e b s
  | .right op a s, e => .binary op a e s
  | .bound n b s, e => .binding n e b s
  | .body n a s, e => .binding n a e s
  | .inner n params b s, e => .function n params e b s
  | .context n params a s, e => .function n params a e s
  | .condition b c s, e => .conditional e b c s
  | .positive a c s, e => .conditional a e c s
  | .negative a b s, e => .conditional a b e s

/-- The nodes around a place, the outermost first. -/
abbrev Context := List Layer

/-- The whole expression, with `e` at the place. -/
def Context.fill (C : Context) (e : Expr) : Expr := C.foldr Layer.plug e

theorem Context.fill_append (C D : Context) (e : Expr) : (C ++ D).fill e = C.fill (D.fill e) :=
  List.foldr_append

theorem Layer.plug_injective (layer : Layer) {e e' : Expr} (h : layer.plug e = layer.plug e') :
    e = e' := by
  cases layer <;> simpa [Layer.plug] using h

/-- What stands at a place of an expression is one part of it. -/
theorem Context.fill_injective (C : Context) {e e' : Expr} (h : C.fill e = C.fill e') : e = e' := by
  induction C with
  | nil => exact h
  | cons layer C ih => exact ih (layer.plug_injective h)

end Heightfield
