import Heightfield.Compilation

/-! Compiled expressions as they are handed out, with what was noticed on the way. -/

namespace Heightfield

structure Evaluator where
  program : Program
  warnings : List CompileWarning
  usesRandom : Bool
deriving Inhabited

namespace Evaluator

/-- No call of `rand` stands in the expression, so equal points have equal values. -/
def isDeterministic (e : Evaluator) : Bool := !e.usesRandom

/-- How many functions the expression defines. -/
def functionCount (e : Evaluator) : Nat := e.program.functions.size

def describe (e : Evaluator) : String :=
  "Evaluator \x7b functions: " ++ toString e.functionCount ++
    ", warnings: " ++ toString e.warnings.length ++
    ", deterministic: " ++ toString e.isDeterministic ++ " \x7d"

def eval (e : Evaluator) (draws : Draws) (point : Point) : Except Halt Float :=
  e.program.eval draws point

end Evaluator

/-- The evaluator of `root` and of all that was compiled with it. -/
def Compilation.finish (c : Compilation) (root : Code) : Evaluator :=
  ⟨⟨root, c.functions⟩, c.warnings, c.usesRandom⟩

/-- Compiles a tree from an empty scope. -/
def Expr.compile (e : Expr) : Except CompileError Evaluator :=
  match Compilation.codeOf e {} with
  | .ok root c => .ok (c.finish root)
  | .error error _ => .error error

/-- The records made while a tree is compiled. -/
def Expr.compileJournal (e : Expr) : Journal :=
  match Compilation.codeOf e {} with
  | .ok root c =>
    let evaluator := c.finish root
    c.journal ++ ⟨.debug, "compiled " ++ evaluator.describe⟩ ::
      evaluator.warnings.map fun w => ⟨.debug, w.message⟩
  | .error _ c => c.journal

end Heightfield
