import Heightfield.Expr

/-! The expressions that an expression is made of. -/

namespace Heightfield.Expr

mutual

/-- The expression itself, and after it those that stand in it, from left to right. -/
def nodes : Expr → List Expr
  | number value s => [number value s]
  | reference n s => [reference n s]
  | call n args s => call n args s :: nodesAll args
  | unary op fixity operand s => unary op fixity operand s :: operand.nodes
  | binary op left right s => binary op left right s :: (left.nodes ++ right.nodes)
  | binding n bound body s => binding n bound body s :: (bound.nodes ++ body.nodes)
  | function n params body context s =>
    function n params body context s :: (body.nodes ++ context.nodes)
  | conditional condition positive negative s =>
    conditional condition positive negative s ::
      (condition.nodes ++ positive.nodes ++ negative.nodes)

def nodesAll : List Expr → List Expr
  | [] => []
  | e :: es => e.nodes ++ nodesAll es

end

theorem mem_nodesAll {node : Expr} {es : List Expr} :
    node ∈ nodesAll es ↔ ∃ e ∈ es, node ∈ e.nodes := by
  induction es with
  | nil => simp [nodesAll]
  | cons e es ih => simp [nodesAll, ih]

end Heightfield.Expr
