import Heightfield.Code
import Heightfield.CompileError
import Heightfield.CompileWarning
import Heightfield.Expr
import Heightfield.Journal
import Heightfield.Scope
import Heightfield.Suggestion

/-! From trees to code. A compilation holds the scope around the current node, the functions
compiled so far, and what is to be reported; it outlives a failure, with everything it holds. A name
is looked up in the scope, then among the coordinates, then among the builtins. -/

namespace Heightfield

structure Compilation where
  scope : Scope := {}
  /-- In the order of their definitions; inner ones follow the outer one. -/
  functions : Array Code := #[]
  warnings : List CompileWarning := []
  usesRandom : Bool := false
  journal : Journal := []
deriving Inhabited

/-- Steps that may fail, and keep what they hold when they do. -/
abbrev Compile := EStateM CompileError Compilation

namespace Compilation

/-- Runs `x` and takes its failure as a value. -/
def attempt {α : Type} (x : Compile α) : Compile (Except CompileError α) := fun c =>
  match x c with
  | .ok a c' => .ok (.ok a) c'
  | .error e c' => .ok (.error e) c'

/-- Succeeds or fails as `r` did. -/
def settle {α : Type} : Except CompileError α → Compile α
  | .ok a => pure a
  | .error e => throw e

def updateScope (f : Scope → Scope) : Compile Unit :=
  modify fun c => { c with scope := f c.scope }

def lookup (name : String) : Compile (Option Binding) := do
  let c ← get
  let (found, scope) := c.scope.lookup name
  set { c with scope }
  pure found

/-- Leaves the innermost binding and says whether it was used. -/
def leave : Compile Bool := do
  let c ← get
  let (used, scope) := c.scope.pop
  set { c with scope }
  pure used

def warn (w : CompileWarning) : Compile Unit :=
  modify fun c => { c with warnings := c.warnings ++ [w] }

def warnAll : List CompileWarning → Compile Unit
  | [] => pure ()
  | w :: ws => do
    warn w
    warnAll ws

/-- What a bound name hides, if it hides anything. -/
def shadowed? (name : String) : Option String :=
  if (Param.lookup? name).isSome then some "evaluation parameter"
  else if (Builtin.lookup? name).isSome then some "builtin"
  else none

def noteShadowing (n : Ident) : Compile Unit :=
  match shadowed? n.name with
  | some what => warn (.shadows n.name n.span what)
  | none => pure ()

/-- Everything that could have been meant: the scope from the outermost name on, then the
coordinates, then the builtins. -/
def candidates (s : Scope) : List String :=
  s.names ++ Param.all.map (·.name) ++ Builtin.names

def unresolved {α : Type} (n : Ident) : Compile α := do
  let c ← get
  throw (.unresolvedReference n.name n.span (Suggestion.similar? n.name (candidates c.scope)))

/-- The code of a name that stands for a value. -/
def reference (n : Ident) : Compile Code := do
  match ← lookup n.name with
  | some (.value slot) =>
    let c ← get
    pure (.frame (c.scope.hopsTo slot))
  | some (.function ..) => throw (.notAValue n.name n.span)
  | none =>
    match Param.lookup? n.name with
    | some p => pure (.param p)
    | none =>
      match Builtin.lookup? n.name with
      | some (.constant value) => pure (.const value)
      | some _ => throw (.notAValue n.name n.span)
      | none => unresolved n

inductive Callee
  /-- A bound function, and how many frames stand between its definition and the call. -/
  | function (index hops : Nat)
  | math (f : MathFunction)
  | random
deriving DecidableEq

/-- What a name calls, and with how many arguments. -/
def callee (n : Ident) : Compile (Callee × Nat) := do
  match ← lookup n.name with
  | some (.function index arity depth) =>
    let c ← get
    pure (.function index (c.scope.depth - depth), arity)
  | some (.value _) => throw (.notCallable n.name n.span)
  | none =>
    if (Param.lookup? n.name).isSome then throw (.notCallable n.name n.span)
    else match Builtin.lookup? n.name with
      | some (.math f) => pure (.math f, 1)
      | some .random => pure (.random, 0)
      | some (.constant _) => throw (.notCallable n.name n.span)
      | none => unresolved n

def callOf : Callee → List Code → Compile Code
  | .function index hops, args => pure (.call index hops args)
  | .math f, args => pure (match args.getLast? with
    | some arg => .math f arg
    | none => .const Binary64.nan)
  | .random, _ => do
    modify fun c => { c with usesRandom := true }
    pure .random

/-- The first parameter that repeats an earlier one. -/
def repeated? : List Ident → List String → Option Ident
  | [], _ => none
  | p :: ps, earlier => if p.name ∈ earlier then some p else repeated? ps (p.name :: earlier)

/-- Takes the next place in the function table. -/
def reserve : Compile Nat := do
  let c ← get
  set { c with functions := c.functions.push (.const Binary64.nan) }
  pure c.functions.size

def fill (index : Nat) (body : Code) : Compile Unit :=
  modify fun c => { c with functions := c.functions.setIfInBounds index body }

/-- Enters the scope of a value. -/
def openBinding (n : Ident) : Compile Unit := do
  noteShadowing n
  updateScope (·.pushValue n.name)

def bindParams : List Ident → Compile Unit
  | [] => pure ()
  | p :: ps => do
    openBinding p
    bindParams ps

/-- Enters the body of a function, and returns its place in the function table. -/
def openFunction (n : Ident) (params : List Ident) : Compile Nat := do
  let index ← reserve
  noteShadowing n
  updateScope (·.pushFunction n.name index params.length)
  bindParams params
  pure index

/-- Leaves the bindings of all parameters, the last one first, and returns the unused ones in the
order they were declared. -/
def leaveParams : List Ident → Compile (List Ident)
  | [] => pure []
  | p :: ps => do
    let unused ← leaveParams ps
    let used ← leave
    pure (if used then unused else p :: unused)

/-- Leaves the body of a function with what came of it. A body that fails leaves the name in
scope. -/
def closeFunction (index : Nat) (params : List Ident) (inner : Except CompileError Code) :
    Compile Unit := do
  let unused ← leaveParams params
  let inner ← settle inner
  fill index inner
  warnAll (unused.map fun p => .unusedParameter p.name p.span)

def logFunction (name : String) (index : Nat) : Compile Unit :=
  let r : LogRecord :=
    ⟨.trace, "function '" ++ name ++ "' compiled into slot " ++ toString index⟩
  modify fun c => { c with journal := c.journal ++ [r] }

mutual

def codeOf : Expr → Compile Code
  | .number value _ => pure (.const value)
  | .reference n _ => reference n
  | .call n args span => do
    let (target, arity) ← callee n
    if args.length ≠ arity then throw (.arityMismatch n.name arity args.length span)
    let codes ← codesOf args
    callOf target codes
  | .unary op fixity operand span => do
    if fixity ≠ .prefixed ∨ (op ≠ .add ∧ op ≠ .sub) then
      throw (.unsupportedOperator op.symbol (if fixity.isInfixed then "infix" else "prefix") span)
    let code ← codeOf operand
    pure (if op = .sub then .negate code else code)
  | .binary op left right _ => do
    let l ← codeOf left
    let r ← codeOf right
    pure (.binary op l r)
  -- The bound expression does not see the name.
  | .binding n bound body _ => do
    let value ← codeOf bound
    openBinding n
    let inner ← attempt (codeOf body)
    let used ← leave
    let inner ← settle inner
    unless used do warn (.unusedBinding n.name n.span)
    pure (.bind value inner)
  -- The body and the context both see the name.
  | .function n params body context _ => do
    if let some p := repeated? params [] then throw (.duplicateParameter p.name p.span)
    let index ← openFunction n params
    let inner ← attempt (codeOf body)
    closeFunction index params inner
    let outer ← attempt (codeOf context)
    let used ← leave
    let outer ← settle outer
    unless used do warn (.unusedFunction n.name n.span)
    logFunction n.name index
    pure outer
  | .conditional condition positive negative _ => do
    let c ← codeOf condition
    let p ← codeOf positive
    let n ← codeOf negative
    pure (.branch c p n)

/-- From left to right. -/
def codesOf : List Expr → Compile (List Code)
  | [] => pure []
  | e :: es => do
    let code ← codeOf e
    let codes ← codesOf es
    pure (code :: codes)

end

end Compilation

end Heightfield
