import Heightfield.Decimal
import Heightfield.Expr.Climb
import Heightfield.Parser.Basic

/-! The grammar of expressions. An expression is a chain of operands; an operand is prefix operators
and one core; a core is a compound form or a term. The forms are stated over a parser `expr` for the
expressions inside them, and `expression` ties the knot: its depth bounds how far expressions nest,
and each nesting reads a token first. -/

namespace Heightfield.Parser

def ident : Parser Ident := do
  let (name, span) ← token (fun | .ident name => some name | _ => none) [.identifier] [.identifier]
  pure ⟨name, span⟩

def number : Parser Expr := do
  let (digits, span) ← token (fun | .number digits => some digits | _ => none) [.number] [.number]
  pure (.number (Decimal.ofChars digits.toList).toFloat span)

/-- `let name = bound in body` -/
def binding (expr : Parser Expr) : Parser Expr := do
  let opening ← fixed (.keyword .letKw)
  let name ← ident
  let _ ← fixed .equals
  let bound ← expr
  let _ ← fixed (.keyword .inKw)
  let body ← expr
  pure (.binding name bound body ⟨opening.start, ← lastStop⟩)

/-- `let name(params) = body in context` -/
def function (expr : Parser Expr) : Parser Expr := do
  let opening ← fixed (.keyword .letKw)
  let name ← ident
  let params ← parenthesized (separated ident (fixed .comma))
  let _ ← fixed .equals
  let body ← expr
  let _ ← fixed (.keyword .inKw)
  let context ← expr
  pure (.function name params body context ⟨opening.start, ← lastStop⟩)

/-- `if condition then positive else negative` -/
def conditional (expr : Parser Expr) : Parser Expr := do
  let opening ← fixed (.keyword .ifKw)
  let condition ← expr
  let _ ← fixed (.keyword .thenKw)
  let positive ← expr
  let _ ← fixed (.keyword .elseKw)
  let negative ← expr
  pure (.conditional condition positive negative ⟨opening.start, ← lastStop⟩)

def compound (expr : Parser Expr) : Parser Expr :=
  binding expr <|> function expr <|> conditional expr

/-- A name is a call if an argument list follows, and a reference if none does. -/
def referenceOrCall (expr : Parser Expr) : Parser Expr := do
  let name ← ident
  (do
    let args ← parenthesized (separated expr (fixed .comma))
    pure (.call name args ⟨name.span.start, ← lastStop⟩)) <|> pure (.reference name name.span)

/-- The parentheses of a group leave no trace, not even in its span. -/
def term (expr : Parser Expr) : Parser Expr :=
  number <|> referenceOrCall expr <|> parenthesized expr

/-- An operator token that `look` finds a declaration for. At the end of input nothing is said to be
acceptable. -/
def operator (look : Op → Option OperatorDecl) (decls : List OperatorDecl) :
    Parser (OperatorDecl × Span) :=
  token (fun | .operator op => look op | _ => none)
    (decls.map fun d => .fixed (.operator d.op)) []

/-- An operand under the prefix operator written before it. -/
def underPrefix (operator : OperatorDecl × Span) (e : Expr) : Expr :=
  .unary operator.1.op .prefixed e (operator.2.through e.span)

/-- The innermost prefix operator is the last one written. -/
def operand (table : OperatorTable) (core : Parser Expr) : Parser Expr := do
  let operators ← many (operator table.prefixed? table.prefixedDecls)
  let e ← core
  pure (operators.foldr underPrefix e)

/-- An infix operator and the operand after it. -/
def operation (table : OperatorTable) (core : Parser Expr) : Parser (OperatorDecl × Expr) := do
  let (decl, _) ← operator table.infixed? table.infixedDecls
  let e ← operand table core
  pure (decl, e)

def chain (table : OperatorTable) (core : Parser Expr) : Parser Expr := do
  let first ← operand table core
  let rest ← many (operation table core)
  pure (Expr.climb first rest)

/-- Chains over `table` whose cores are `core` of the expressions one level down. -/
def expression (table : OperatorTable) (core : Parser Expr → Parser Expr) (depth : Nat)
    (c : Cursor) (f : Furthest) : Option (Expr × Cursor) × Furthest :=
  match depth with
  | 0 => refuse c f
  | depth + 1 => chain table (core (expression table core depth)) c f

/-- A whole input: an expression and nothing after it. -/
def program (table : OperatorTable) (core : Parser Expr → Parser Expr) (depth : Nat) :
    Parser Expr := do
  let e ← expression table core depth
  endOfInput
  pure e

/-- The cores of the language. -/
def anyCore (expr : Parser Expr) : Parser Expr := compound expr <|> term expr

end Heightfield.Parser
