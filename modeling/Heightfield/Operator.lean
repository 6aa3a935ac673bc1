/-! Operators and the table that gives them precedence. A table is a list of tiers, the tightest
first; nothing else about precedence or associativity is written anywhere. -/

namespace Heightfield

inductive Op
  | add | sub | mul | div | pow
  | and | or
  | le | lt | ge | gt | eq | ne
deriving DecidableEq, Inhabited

def Op.symbol : Op → String
  | .add => "+" | .sub => "-" | .mul => "*" | .div => "/" | .pow => "^"
  | .and => "&&" | .or => "||"
  | .le => "<=" | .lt => "<" | .ge => ">=" | .gt => ">" | .eq => "==" | .ne => "!="

def Op.all : List Op :=
  [.add, .sub, .mul, .div, .pow, .and, .or, .le, .lt, .ge, .gt, .eq, .ne]

theorem Op.mem_all (op : Op) : op ∈ Op.all := by cases op <;> decide

inductive Assoc
  | left | right
deriving DecidableEq, Inhabited

/-- Where an operator stands: before its operand, or between two. -/
inductive Fixity
  | prefixed
  | infixed (assoc : Assoc)
deriving DecidableEq, Inhabited

def Fixity.isInfixed : Fixity → Bool
  | .prefixed => false
  | .infixed _ => true

/-- Operators of one precedence. -/
structure Tier where
  fixity : Fixity
  ops : List Op
deriving DecidableEq, Inhabited

structure OperatorDecl where
  op : Op
  fixity : Fixity
  /-- Index of its tier, counted from the tightest. -/
  tier : Nat
  precedence : Nat
deriving DecidableEq, Inhabited

/-- The least precedence that an operator in the right operand may have: a right-associative
operator admits its own. -/
def OperatorDecl.nextLeast (d : OperatorDecl) : Nat :=
  if d.fixity = .infixed .right then d.precedence else d.precedence + 1

structure OperatorTable where
  tiers : List Tier
deriving DecidableEq, Inhabited

namespace OperatorTable

/-- The tightest tier has as many as there are tiers, the loosest has 1. -/
def precedence (table : OperatorTable) (tier : Nat) : Nat := table.tiers.length - tier

def declarations (table : OperatorTable) : List OperatorDecl :=
  table.tiers.zipIdx.flatMap fun (tier, i) =>
    tier.ops.map fun op => ⟨op, tier.fixity, i, table.precedence i⟩

def prefixedDecls (table : OperatorTable) : List OperatorDecl :=
  table.declarations.filter (!·.fixity.isInfixed)

def infixedDecls (table : OperatorTable) : List OperatorDecl :=
  table.declarations.filter (·.fixity.isInfixed)

/-- The first declaration of `op` before an operand. -/
def prefixed? (table : OperatorTable) (op : Op) : Option OperatorDecl :=
  table.prefixedDecls.find? (·.op = op)

/-- The first declaration of `op` between operands. -/
def infixed? (table : OperatorTable) (op : Op) : Option OperatorDecl :=
  table.infixedDecls.find? (·.op = op)

/-- The operators of the expression language. -/
def standard : OperatorTable where
  tiers := [
    ⟨.prefixed, [.sub, .add]⟩,
    ⟨.infixed .right, [.pow]⟩,
    ⟨.infixed .left, [.mul, .div]⟩,
    ⟨.infixed .left, [.add, .sub]⟩,
    ⟨.infixed .left, [.and]⟩,
    ⟨.infixed .left, [.or]⟩,
    ⟨.infixed .left, [.le, .lt, .ge, .gt, .eq, .ne]⟩]

end OperatorTable

end Heightfield
