import Heightfield.Decimal.Notation
import Heightfield.Expr

/-! Canonical text. Operators stand in parentheses with their operands, so precedence and
associativity show; the compound forms stand bare, since each reaches as far right as it can. -/

namespace Heightfield.Expr

mutual

def text : Expr → String
  | number value _ => Notation.plain value
  | reference name _ => name.name
  | call callee args _ => callee.name ++ "(" ++ ", ".intercalate (texts args) ++ ")"
  | unary op _ operand _ => "(" ++ op.symbol ++ operand.text ++ ")"
  | binary op left right _ => "(" ++ left.text ++ " " ++ op.symbol ++ " " ++ right.text ++ ")"
  | binding name bound body _ => "let " ++ name.name ++ " = " ++ bound.text ++ " in " ++ body.text
  | function name params body context _ =>
    "let " ++ name.name ++ "(" ++ ", ".intercalate (params.map (·.name)) ++ ") = " ++ body.text ++
      " in " ++ context.text
  | conditional condition positive negative _ =>
    "if " ++ condition.text ++ " then " ++ positive.text ++ " else " ++ negative.text

def texts : List Expr → List String
  | [] => []
  | e :: es => e.text :: texts es

end

end Heightfield.Expr
