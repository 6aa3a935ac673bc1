import Heightfield.Parse
import Heightfield.Proofs.Grammar.Bare

/-! The grammar of expressions, told without the parser that reads it. A derivation is a `Phrase`;
it has the tokens it derives and the tree it stands for, and several derivations may have the same
tokens. `Phrase.Greedy` picks among them: a compound form's last part runs as far as it can. -/

namespace Heightfield.Grammar

section

variable (table : OperatorTable)

mutual

/-- Operands with infix operators between them. -/
inductive Phrase
  | last (operand : Operand)
  | more (operand : Operand) (decl : OperatorDecl)
      (declared : table.infixed? decl.op = some decl) (tail : Phrase)

/-- A core under prefix operators. -/
inductive Operand
  | core (c : Core)
  | prefixed (decl : OperatorDecl) (declared : table.prefixed? decl.op = some decl)
      (operand : Operand)

inductive Core
  /-- `let name = bound in body` -/
  | binding (name : String) (bound body : Phrase)
  /-- `let name(params) = body in context` -/
  | function (name : String) (params : List String) (body context : Phrase)
  /-- `if condition then positive else negative` -/
  | conditional (condition positive negative : Phrase)
  | number (digits : String)
  | reference (name : String)
  | call (name : String) (args : List Phrase)
  /-- A phrase in parentheses. -/
  | group (inner : Phrase)

end

end

variable {table : OperatorTable}

/-- Commas go between, so each item but the first stands behind one. -/
def behindCommas (items : List (List Token)) : List Token := items.flatMap (.comma :: ·)

def commaSeparated : List (List Token) → List Token
  | [] => []
  | first :: rest => first ++ behindCommas rest

mutual

def Phrase.tokens : Phrase table → List Token
  | .last o => o.tokens
  | .more o decl _ tail => o.tokens ++ .operator decl.op :: tail.tokens

def Operand.tokens : Operand table → List Token
  | .core c => c.tokens
  | .prefixed decl _ o => .operator decl.op :: o.tokens

def Core.tokens : Core table → List Token
  | .binding name bound body =>
    .keyword .letKw :: .ident name :: .equals :: (bound.tokens ++ .keyword .inKw :: body.tokens)
  | .function name params body context =>
    .keyword .letKw :: .ident name :: .openParen ::
      (commaSeparated (params.map fun p => [.ident p]) ++
      .closeParen :: .equals :: (body.tokens ++ .keyword .inKw :: context.tokens))
  | .conditional condition positive negative =>
    .keyword .ifKw :: (condition.tokens ++ .keyword .thenKw :: (positive.tokens ++
      .keyword .elseKw :: negative.tokens))
  | .number digits => [.number digits]
  | .reference name => [.ident name]
  | .call name args =>
    .ident name :: .openParen :: (commaSeparated (tokensAll args) ++ [.closeParen])
  | .group inner => .openParen :: (inner.tokens ++ [.closeParen])

def tokensAll : List (Phrase table) → List (List Token)
  | [] => []
  | p :: ps => p.tokens :: tokensAll ps

end

/-- The tree of a first operand and of those after it. -/
def climbed (parts : Expr × Expr.Chain) : Expr := Expr.climb parts.1 parts.2

mutual

/-- The first operand, and the others under their operators. -/
def Phrase.parts : Phrase table → Expr × Expr.Chain
  | .last o => (o.tree, [])
  | .more o decl _ tail => (o.tree, (decl, tail.parts.1) :: tail.parts.2)

def Operand.tree : Operand table → Expr
  | .core c => c.tree
  | .prefixed decl _ o => .unary decl.op .prefixed o.tree ⟨0, 0⟩

/-- A group leaves no node. -/
def Core.tree : Core table → Expr
  | .binding name bound body =>
    .binding (.bare name) (climbed bound.parts) (climbed body.parts) ⟨0, 0⟩
  | .function name params body context =>
    .function (.bare name) (params.map .bare) (climbed body.parts) (climbed context.parts) ⟨0, 0⟩
  | .conditional condition positive negative =>
    .conditional (climbed condition.parts) (climbed positive.parts) (climbed negative.parts) ⟨0, 0⟩
  | .number digits => .number (Decimal.ofChars digits.toList).toFloat ⟨0, 0⟩
  | .reference name => .reference (.bare name) ⟨0, 0⟩
  | .call name args => .call (.bare name) (treesAll args) ⟨0, 0⟩
  | .group inner => climbed inner.parts

def treesAll : List (Phrase table) → List Expr
  | [] => []
  | p :: ps => climbed p.parts :: treesAll ps

end

/-- Without spans, like every tree of a derivation. -/
def Phrase.tree (p : Phrase table) : Expr := climbed p.parts

theorem tokensAll_eq : ∀ ps : List (Phrase table), tokensAll ps = ps.map Phrase.tokens
  | [] => rfl
  | p :: ps => congrArg (p.tokens :: ·) (tokensAll_eq ps)

theorem treesAll_eq : ∀ ps : List (Phrase table), treesAll ps = ps.map Phrase.tree
  | [] => rfl
  | p :: ps => congrArg (p.tree :: ·) (treesAll_eq ps)

/-- Of all phrases that `p.tokens ++ rest` begins with, none is longer than `p`. -/
def Phrase.Longest (p : Phrase table) (rest : List Token) : Prop :=
  ∀ q : Phrase table, q.tokens <+: p.tokens ++ rest → q.tokens.length ≤ p.tokens.length

mutual

/-- Where `rest` follows, the last part of every compound form is as long as it can be, and a name
that parentheses follow is called. -/
def Phrase.Greedy : Phrase table → List Token → Prop
  | .last o, rest => o.Greedy rest
  | .more o decl _ tail, rest =>
    o.Greedy (.operator decl.op :: (tail.tokens ++ rest)) ∧ tail.Greedy rest

def Operand.Greedy : Operand table → List Token → Prop
  | .core c, rest => c.Greedy rest
  | .prefixed _ _ o, rest => o.Greedy rest

def Core.Greedy : Core table → List Token → Prop
  | .binding _ bound body, rest =>
    bound.Greedy (.keyword .inKw :: (body.tokens ++ rest)) ∧ body.Greedy rest ∧ body.Longest rest
  | .function _ _ body context, rest =>
    body.Greedy (.keyword .inKw :: (context.tokens ++ rest)) ∧ context.Greedy rest ∧
      context.Longest rest
  | .conditional condition positive negative, rest =>
    condition.Greedy (.keyword .thenKw :: (positive.tokens ++ .keyword .elseKw ::
      (negative.tokens ++ rest))) ∧
    positive.Greedy (.keyword .elseKw :: (negative.tokens ++ rest)) ∧
    negative.Greedy rest ∧ negative.Longest rest
  | .number _, _ => True
  | .reference _, rest => rest.head? ≠ some .openParen
  | .call _ args, rest => GreedyAll args (.closeParen :: rest)
  | .group inner, rest => inner.Greedy (.closeParen :: rest)

/-- The arguments of a call, with `rest` after the last. -/
def GreedyAll : List (Phrase table) → List Token → Prop
  | [], _ => True
  | p :: ps, rest => p.Greedy (behindCommas (tokensAll ps) ++ rest) ∧ GreedyAll ps rest

end

end Heightfield.Grammar
