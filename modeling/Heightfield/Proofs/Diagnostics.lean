import Heightfield.Build
import Heightfield.Proofs.Compilation.Warnings
import Heightfield.Proofs.Grammar.Slices
import Heightfield.Proofs.WellFormed.Origin

/-! What a compilation reports stands in the source where the report says. The spans come from the
tokens, the parser puts them together and the compiler copies them from different nodes, so each
kind of report has its own reason. -/

namespace Heightfield

/-- The source has at the error's span what the error is about. -/
def CompileError.Shown (source : String) : CompileError → Prop
  | .unresolvedReference name span _ | .notAValue name span | .notCallable name span
  | .duplicateParameter name span => span.slice? source.toList = some name.toList
  | .arityMismatch name expected found span => found ≠ expected ∧
      ∃ text : String, span.slice? source.toList = some text.toList ∧ ∃ callee args s,
        parse text = .ok (.call callee args s) ∧ callee.name = name ∧ args.length = found
  | .unsupportedOperator .. => True

theorem CompileError.Of.shown {source : String} {e : Expr} {err : CompileError} (h : err.Of e)
    (hparse : parse source = .ok e) : err.Shown source := by
  cases err with
  | arityMismatch name expected found span =>
    obtain ⟨hne, n, args, hnode, rfl, rfl⟩ := h
    exact ⟨hne, parse_call hparse hnode⟩
  | unsupportedOperator symbol fixity span => trivial
  | _ => exact (parse_idents hparse).1 _ h

/-- What a source fails with, and what it is warned of, stands in it where the report says. -/
theorem build_reports_shown {source : String} {e : Expr} (h : parse source = .ok e) :
    match build source with
    | .error (.parse _) => False
    | .error (.compile err) => err.Shown source
    | .ok evaluator =>
      (∀ w ∈ evaluator.warnings, w.span.slice? source.toList = some w.name.toList ∧
        (⟨w.name, w.span⟩ : Ident) ∈ e.binders) ∧
      evaluator.warnings.Pairwise fun a b => a.kind = b.kind → a.span ≠ b.span := by
  have hbuild : build source = e.compile.mapError .compile := by
    rw [build, h]
    rfl
  rw [hbuild]
  obtain ⟨hslices, hspans⟩ := parse_idents h
  cases hcompile : e.compile with
  | error err =>
    have hfault := Expr.mem_faults_of_compile hcompile
    exact (e.faults_origin [] err hfault).shown h
  | ok evaluator =>
    have hbinders := hspans.sublist (e.binders_sublist.map (·.span))
    have hwarnings := Expr.compile_warnings hcompile
    refine ⟨fun w hw => ?_, ?_⟩
    · rw [hwarnings] at hw
      have hbinder := Expr.binder_of_warning hw
      exact ⟨hslices _ (e.binders_sublist.subset hbinder), hbinder⟩
    · rw [hwarnings]
      exact Expr.warnings_apart hbinders

/-- A call with one argument too many, and a name that hides a coordinate and is not used. -/
theorem let_reports_shown :
    build "let x = y in sin(x, t)" = .error (.compile (.arityMismatch "sin" 1 2 ⟨13, 22⟩)) ∧
      (CompileError.arityMismatch "sin" 1 2 ⟨13, 22⟩).Shown "let x = y in sin(x, t)" ∧
      ∃ evaluator, build "let x = y in t" = .ok evaluator ∧ evaluator.warnings =
          [.shadows "x" ⟨4, 5⟩ "evaluation parameter", .unusedBinding "x" ⟨4, 5⟩] ∧
        ∀ w ∈ evaluator.warnings, w.span.slice? "let x = y in t".toList = some w.name.toList := by
  have hcall : parse "let x = y in sin(x, t)" = .ok (.binding ⟨"x", ⟨4, 5⟩⟩
      (.reference ⟨"y", ⟨8, 9⟩⟩ ⟨8, 9⟩)
      (.call ⟨"sin", ⟨13, 16⟩⟩ [.reference ⟨"x", ⟨17, 18⟩⟩ ⟨17, 18⟩,
        .reference ⟨"t", ⟨20, 21⟩⟩ ⟨20, 21⟩] ⟨13, 22⟩) ⟨0, 22⟩) := by cbv
  have hlet : parse "let x = y in t" = .ok (.binding ⟨"x", ⟨4, 5⟩⟩
      (.reference ⟨"y", ⟨8, 9⟩⟩ ⟨8, 9⟩) (.reference ⟨"t", ⟨13, 14⟩⟩ ⟨13, 14⟩) ⟨0, 14⟩) := by cbv
  have hfails : build "let x = y in sin(x, t)" =
      .error (.compile (.arityMismatch "sin" 1 2 ⟨13, 22⟩)) := by
    rw [build, hcall]
    rfl
  have hbuilds : build "let x = y in t" = .ok ⟨⟨.bind (.param .y) (.param .t), #[]⟩,
      [.shadows "x" ⟨4, 5⟩ "evaluation parameter", .unusedBinding "x" ⟨4, 5⟩], false⟩ := by
    rw [build, hlet]
    rfl
  have hshown := build_reports_shown hcall
  have hwarned := build_reports_shown hlet
  rw [hfails] at hshown
  rw [hbuilds] at hwarned
  exact ⟨hfails, hshown, _, hbuilds, rfl, fun w hw => (hwarned.1 w hw).1⟩

end Heightfield
