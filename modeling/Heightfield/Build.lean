import Heightfield.Diagnostic.Report
import Heightfield.Evaluator
import Heightfield.Parse

/-! From a source to an evaluator, and to the records made on the way. -/

namespace Heightfield

/-- Why a source has no evaluator. -/
inductive BuildError
  | parse (e : SyntaxError)
  | compile (e : CompileError)
deriving DecidableEq, Inhabited

namespace BuildError

def message : BuildError → String
  | parse e => e.message
  | compile e => e.message

def diagnostic : BuildError → Diagnostic
  | parse e => e.diagnostic
  | compile e => e.diagnostic

/-- The diagnostic with the marked source. -/
def report (e : BuildError) (source : String) : String := e.diagnostic.report source

end BuildError

def build (source : String) : Except BuildError Evaluator := do
  let e ← (parse source).mapError .parse
  e.compile.mapError .compile

theorem build_eq_error {source : String} {err : BuildError} : build source = .error err ↔
    (∃ e, parse source = .error e ∧ err = .parse e) ∨
      ∃ tree e, parse source = .ok tree ∧ tree.compile = .error e ∧ err = .compile e := by
  unfold build
  constructor
  · intro h
    cases hparse : parse source with
    | error e =>
      rw [hparse] at h
      cases h
      exact .inl ⟨e, rfl, rfl⟩
    | ok tree =>
      rw [hparse] at h
      change tree.compile.mapError BuildError.compile = .error err at h
      cases hcompile : tree.compile with
      | ok evaluator =>
        rw [hcompile] at h
        cases h
      | error e =>
        rw [hcompile] at h
        cases h
        exact .inr ⟨tree, e, rfl, hcompile, rfl⟩
  · rintro (⟨e, hparse, rfl⟩ | ⟨tree, e, hparse, hcompile, rfl⟩)
    · rw [hparse]
      rfl
    · rw [hparse]
      change tree.compile.mapError BuildError.compile = _
      rw [hcompile]
      rfl

/-- The tokens are counted once lexing is through, whatever follows. -/
def buildJournal (source : String) : Journal :=
  match lex source with
  | .error _ => []
  | .ok tokens =>
    ⟨.debug, "lexed " ++ toString tokens.length ++ " tokens"⟩ ::
      match parse source with
      | .error _ => []
      | .ok e => e.compileJournal

end Heightfield
