import Heightfield.Diagnostic

/-! What a tree with code may still be told about. -/

namespace Heightfield

inductive CompileWarning
  | unusedBinding (name : String) (span : Span)
  | unusedParameter (name : String) (span : Span)
  | unusedFunction (name : String) (span : Span)
  /-- The name hides one that needs no binding; `what` says which kind. -/
  | shadows (name : String) (span : Span) (what : String)
deriving DecidableEq, Inhabited

namespace CompileWarning

def name : CompileWarning → String
  | unusedBinding n _ | unusedParameter n _ | unusedFunction n _ | shadows n _ _ => n

def span : CompileWarning → Span
  | unusedBinding _ s | unusedParameter _ s | unusedFunction _ s | shadows _ s _ => s

def message : CompileWarning → String
  | unusedBinding name _ => "unused binding '" ++ name ++ "'"
  | unusedParameter name _ => "unused parameter '" ++ name ++ "'"
  | unusedFunction name _ => "unused function '" ++ name ++ "'"
  | shadows name _ what => "'" ++ name ++ "' shadows the " ++ what ++ " of the same name"

/-- A shadowing name is only noted. -/
def diagnostic (w : CompileWarning) : Diagnostic :=
  match w with
  | shadows .. =>
    (((Diagnostic.note w.message).located w.span).labelled "bound here").noting
      "inside this scope the name refers to the binding"
  | _ => ((Diagnostic.warning w.message).located w.span).labelled "never used"

end CompileWarning

end Heightfield
