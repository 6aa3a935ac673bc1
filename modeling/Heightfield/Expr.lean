import Heightfield.Operator
import Heightfield.Span

/-! Expression trees. Every node and every name carries the span it was written at; trees built by
hand may carry any. -/

namespace Heightfield

structure Ident where
  name : String
  span : Span
deriving DecidableEq, Inhabited

inductive Expr
  | number (value : Float) (span : Span)
  | reference (name : Ident) (span : Span)
  | call (callee : Ident) (args : List Expr) (span : Span)
  | unary (op : Op) (fixity : Fixity) (operand : Expr) (span : Span)
  | binary (op : Op) (left right : Expr) (span : Span)
  /-- `let name = bound in body` -/
  | binding (name : Ident) (bound body : Expr) (span : Span)
  /-- `let name(params) = body in context` -/
  | function (name : Ident) (params : List Ident) (body context : Expr) (span : Span)
  | conditional (condition positive negative : Expr) (span : Span)
deriving Inhabited

namespace Expr

def span : Expr → Span
  | number _ s | reference _ s | call _ _ s | unary _ _ _ s | binary _ _ _ s
  | binding _ _ _ s | function _ _ _ _ s | conditional _ _ _ s => s

/-- A binary node that spans its operands. -/
def combine (op : Op) (left right : Expr) : Expr :=
  binary op left right (left.span.through right.span)

end Expr

end Heightfield
