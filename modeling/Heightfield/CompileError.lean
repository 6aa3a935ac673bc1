import Heightfield.Diagnostic

/-! Why a tree has no code. -/

namespace Heightfield

inductive CompileError
  | unresolvedReference (name : String) (span : Span) (similar : Option String)
  /-- A function stands where a value is needed. -/
  | notAValue (name : String) (span : Span)
  | notCallable (name : String) (span : Span)
  | arityMismatch (name : String) (expected found : Nat) (span : Span)
  | duplicateParameter (name : String) (span : Span)
  /-- An operator that can be written but has no meaning there. -/
  | unsupportedOperator (symbol fixity : String) (span : Span)
deriving DecidableEq, Inhabited

namespace CompileError

def span : CompileError → Span
  | unresolvedReference _ s _ | notAValue _ s | notCallable _ s | arityMismatch _ _ _ s
  | duplicateParameter _ s | unsupportedOperator _ _ s => s

def message : CompileError → String
  | unresolvedReference name _ _ => "unresolved reference '" ++ name ++ "'"
  | notAValue name _ => "'" ++ name ++ "' is a function and cannot be used as a value"
  | notCallable name _ => "'" ++ name ++ "' is not a function"
  | arityMismatch name expected found _ =>
    "'" ++ name ++ "' expects " ++ toString expected ++ " argument(s), found " ++ toString found
  | duplicateParameter name _ => "parameter '" ++ name ++ "' is declared more than once"
  | unsupportedOperator symbol fixity _ =>
    "unsupported " ++ fixity ++ " operator '" ++ symbol ++ "'"

def diagnostic (e : CompileError) : Diagnostic :=
  let d := (Diagnostic.error e.message).located e.span
  match e with
  | unresolvedReference _ _ none => d.labelled "not found in this scope"
  | unresolvedReference _ _ (some similar) =>
    (d.labelled "not found in this scope").suggesting
      ("a similar name exists: '" ++ similar ++ "'") similar
  | notAValue name _ =>
    (d.labelled "used as a value here").helping ("call it instead: " ++ name ++ "(...)")
  | notCallable .. => d.labelled "called here"
  | arityMismatch _ expected _ _ => d.labelled ("expected " ++ toString expected ++ " argument(s)")
  | duplicateParameter .. => d.labelled "declared again here"
  | unsupportedOperator .. => d.labelled "here"

end CompileError

end Heightfield
