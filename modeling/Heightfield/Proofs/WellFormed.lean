import Heightfield.Evaluator

/-! Which expressions have code, told over names alone. `WellFormed` asks every check of a tree at
once; `Expr.faults` lists those it fails, in the order they are made. Neither stops anywhere, and
neither knows of slots, of a function table or of marks of use. -/

namespace Heightfield

/-- What a name can be used for. -/
inductive Sense
  | value
  | function (arity : Nat)
deriving DecidableEq

def Builtin.sense (b : Builtin) : Sense :=
  match b.arity? with
  | some arity => .function arity
  | none => .value

/-- The names bound around an expression, the innermost first. -/
abbrev Names := List (String × Sense)

namespace Names

variable (names : Names)

/-- The innermost binding of that name; else a coordinate, else a builtin. -/
def sense? (name : String) : Option Sense :=
  (names.lookup name).or
    (((Param.lookup? name).map fun _ => .value).or ((Builtin.lookup? name).map Builtin.sense))

/-- The names around the body of `let n = _ in _`. -/
def bind (n : Ident) : Names := (n.name, .value) :: names

/-- The names around the context of a function. -/
def define (n : Ident) (params : List Ident) : Names :=
  (n.name, .function params.length) :: names

/-- The names around the body of a function: its parameters hide its own name. -/
def enter (n : Ident) (params : List Ident) : Names :=
  (params.map fun p => (p.name, .value)).reverse ++ names.define n params

end Names

inductive WellFormed : Names → Expr → Prop
  | number {names v sp} : WellFormed names (.number v sp)
  | reference {names n sp} (resolved : Names.sense? names n.name = some .value) :
      WellFormed names (.reference n sp)
  | call {names n args sp}
      (resolved : Names.sense? names n.name = some (.function args.length))
      (parts : ∀ arg ∈ args, WellFormed names arg) : WellFormed names (.call n args sp)
  | unary {names op operand sp} (sign : op = .add ∨ op = .sub)
      (part : WellFormed names operand) : WellFormed names (.unary op .prefixed operand sp)
  | binary {names op left right sp} (first : WellFormed names left)
      (second : WellFormed names right) : WellFormed names (.binary op left right sp)
  | binding {names n bound body sp} (first : WellFormed names bound)
      (second : WellFormed (Names.bind names n) body) :
      WellFormed names (.binding n bound body sp)
  | function {names n params body context sp} (distinct : (params.map (·.name)).Nodup)
      (first : WellFormed (Names.enter names n params) body)
      (second : WellFormed (Names.define names n params) context) :
      WellFormed names (.function n params body context sp)
  | conditional {names condition positive negative sp} (first : WellFormed names condition)
      (second : WellFormed names positive) (third : WellFormed names negative) :
      WellFormed names (.conditional condition positive negative sp)

namespace Names

variable (names : Names)

/-- A name bound nowhere, with what it may have been meant for: the bound names from the outermost
on, the coordinates, the builtins. -/
def unresolved (n : Ident) : CompileError :=
  .unresolvedReference n.name n.span (Suggestion.similar? n.name
    ((names.map (·.1)).reverse ++ Param.all.map (·.name) ++ Builtin.names))

def referenceFaults (n : Ident) : List CompileError :=
  match names.sense? n.name with
  | some .value => []
  | some (.function _) => [.notAValue n.name n.span]
  | none => [names.unresolved n]

/-- Those of a callee, or of the number of its arguments. -/
def calleeFaults (n : Ident) (found : Nat) (span : Span) : List CompileError :=
  match names.sense? n.name with
  | some .value => [.notCallable n.name n.span]
  | some (.function arity) =>
    if found = arity then [] else [.arityMismatch n.name arity found span]
  | none => [names.unresolved n]

end Names

def operatorFaults (op : Op) (fixity : Fixity) (span : Span) : List CompileError :=
  if fixity = .prefixed ∧ (op = .add ∨ op = .sub) then []
  else [.unsupportedOperator op.symbol (if fixity.isInfixed then "infix" else "prefix") span]

/-- One for each parameter named like an earlier one. -/
def parameterFaults : List Ident → List String → List CompileError
  | [], _ => []
  | p :: ps, earlier =>
    (if p.name ∈ earlier then [.duplicateParameter p.name p.span] else []) ++
      parameterFaults ps (p.name :: earlier)

namespace Expr

mutual

def faults : Expr → Names → List CompileError
  | number _ _, _ => []
  | reference n _, names => names.referenceFaults n
  | call n args sp, names => names.calleeFaults n args.length sp ++ faultsAll args names
  | unary op fixity operand sp, names => operatorFaults op fixity sp ++ operand.faults names
  | binary _ left right _, names => left.faults names ++ right.faults names
  | binding n bound body _, names => bound.faults names ++ body.faults (names.bind n)
  | function n params body context _, names =>
    parameterFaults params [] ++ body.faults (names.enter n params) ++
      context.faults (names.define n params)
  | conditional condition positive negative _, names =>
    condition.faults names ++ positive.faults names ++ negative.faults names

def faultsAll : List Expr → Names → List CompileError
  | [], _ => []
  | e :: es, names => e.faults names ++ faultsAll es names

end

end Expr

end Heightfield
