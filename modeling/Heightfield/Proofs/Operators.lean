import Heightfield.Build
import Heightfield.Proofs.Compilation.Assembly
import Heightfield.Proofs.Grammar.Places
import Heightfield.Proofs.Meaning.Preservation
import Heightfield.Proofs.WellFormed.Origin
import Heightfield.Proofs.WellFormed.Verdict

/-! The table declares operators, and the compiler has code for operators; neither is made from the
other. What the parser builds stays within the declarations, and all of these have code, so that no
source fails for an operator. -/

namespace Heightfield

namespace OperatorTable

variable {table : OperatorTable} {op : Op} {decl : OperatorDecl}

/-- A tier of that kind, between operands or before one, has the operator. -/
def Declares (table : OperatorTable) (infixed : Bool) (op : Op) : Prop :=
  ∃ tier ∈ table.tiers, tier.fixity.isInfixed = infixed ∧ op ∈ tier.ops

theorem declares_of_mem (h : decl ∈ table.declarations) :
    table.Declares decl.fixity.isInfixed decl.op := by
  obtain ⟨⟨tier, i⟩, htier, hdecl⟩ := List.mem_flatMap.1 h
  obtain ⟨op, hop, rfl⟩ := List.mem_map.1 hdecl
  exact ⟨tier, List.fst_mem_of_mem_zipIdx htier, rfl, hop⟩

theorem declares_of_prefixed? (h : table.prefixed? op = some decl) : table.Declares false op := by
  obtain ⟨hmem, hfixity⟩ := List.mem_filter.1 (List.mem_of_find?_eq_some h)
  have hdeclares := declares_of_mem hmem
  have hprefixed : decl.fixity.isInfixed = false := by simpa using hfixity
  rwa [op_of_prefixed? h, hprefixed] at hdeclares

theorem declares_of_infixed? (h : table.infixed? op = some decl) : table.Declares true op := by
  obtain ⟨hmem, hfixity⟩ := List.mem_filter.1 (List.mem_of_find?_eq_some h)
  have hdeclares := declares_of_mem hmem
  rwa [op_of_infixed? h, hfixity] at hdeclares

end OperatorTable

namespace Written

variable {ls : List Lexeme}

/-- Climbing takes the operators as the chain has them, so both kinds of node keep the declaration
they were read with. -/
theorem unary_declared {op : Op} {fixity : Fixity} {operand : Expr} {s : Span}
    (h : Written ls (.unary op fixity operand s)) :
    fixity = .prefixed ∧ OperatorTable.standard.Declares false op := by
  generalize he : Expr.unary op fixity operand s = e at h
  induction h with
  | unary _ declared =>
    cases he
    exact ⟨rfl, OperatorTable.declares_of_prefixed? declared⟩
  | group _ _ _ ih => exact ih he
  | _ => cases he

theorem binary_declared {op : Op} {left right : Expr} {s : Span}
    (h : Written ls (.binary op left right s)) : OperatorTable.standard.Declares true op := by
  generalize he : Expr.binary op left right s = e at h
  induction h with
  | binary _ _ declared =>
    cases he
    exact OperatorTable.declares_of_infixed? declared
  | group _ _ _ ih => exact ih he
  | _ => cases he

end Written

/-- Each operator of the tree stands where the table declares it. -/
structure Expr.Declared (table : OperatorTable) (e : Expr) : Prop where
  unary : ∀ op fixity operand s, .unary op fixity operand s ∈ e.nodes →
    fixity = .prefixed ∧ table.Declares false op
  binary : ∀ op left right s, .binary op left right s ∈ e.nodes → table.Declares true op

theorem parse_declared {source : String} {e : Expr} (h : parse source = .ok e) :
    e.Declared .standard := by
  obtain ⟨lexemes, -, hwritten⟩ := parse_written h
  constructor
  · intro op fixity operand s hnode
    obtain ⟨ms, -, hunary⟩ := hwritten.node hnode
    exact hunary.unary_declared
  · intro op left right s hnode
    obtain ⟨ms, -, hbinary⟩ := hwritten.node hnode
    exact hbinary.binary_declared

/-- What the operator before an operand makes of it. -/
def Op.before (op : Op) (operand : Run Float) : Run Float := do
  let v ← operand
  pure (if op = .sub then -v else v)

/-- What the operator makes of the operands around it. `&&` asks for the right one if the left one
is truthy, and `||` if it is not. -/
def Op.between (op : Op) (left right : Run Float) : Run Float := do
  let l ← left
  match op.strict? with
  | some f => do
    let r ← right
    pure (f l r)
  | none => if op = .and ↔ truthy l then right else pure l

section Code

variable (draws : Draws) (point : Point) (enter : Nat → Frames → Run Float) (frames : Frames)

theorem Code.run_sign (op : Op) (code : Code) :
    (if op = .sub then code.negate else code).run draws point enter frames =
      op.before (code.run draws point enter frames) := by
  by_cases h : op = .sub
  · simp [h, Op.before, Code.run]
  · simp [h, Op.before]

theorem Code.run_binary (op : Op) (l r : Code) :
    (Code.binary op l r).run draws point enter frames =
      op.between (l.run draws point enter frames) (r.run draws point enter frames) := by
  rw [Code.run, Op.between]
  congr 1
  funext v
  cases hstrict : op.strict? with
  | some f =>
    have happly := Op.apply_of_strict hstrict v
    simp only [(happly v).1, fun w => (happly w).2]
  | none =>
    obtain rfl | rfl := Op.strict?_eq_none hstrict <;> cases ht : truthy v <;>
      simp [Op.decided?, Op.apply, ht]

end Code

open Compilation

/-- The compiler has code for the operator where it is declared. Where the operands have code, so
does the expression under it, and that code evaluates the operator. -/
def OperatorDecl.Implemented (decl : OperatorDecl) : Prop :=
  match decl.fixity with
  | .prefixed => ∀ ⦃operand s c inner c'⦄, codeOf operand c = .ok inner c' →
      ∃ code, codeOf (.unary decl.op .prefixed operand s) c = .ok code c' ∧
        ∀ draws point enter frames, code.run draws point enter frames =
          decl.op.before (inner.run draws point enter frames)
  | .infixed _ => ∀ ⦃left right s c l c₁ r c'⦄, codeOf left c = .ok l c₁ →
      codeOf right c₁ = .ok r c' →
      ∃ code, codeOf (.binary decl.op left right s) c = .ok code c' ∧
        ∀ draws point enter frames, code.run draws point enter frames =
          decl.op.between (l.run draws point enter frames) (r.run draws point enter frames)

/-- The signs are the only operators of the prefix tier. -/
theorem sign_of_declared {op : Op} (h : OperatorTable.standard.Declares false op) :
    op = .add ∨ op = .sub := by
  have hsigns : ∀ tier ∈ OperatorTable.standard.tiers, tier.fixity.isInfixed = false →
      ∀ op ∈ tier.ops, op = .add ∨ op = .sub := by decide
  obtain ⟨tier, htier, hfixity, hop⟩ := h
  exact hsigns tier htier hfixity op hop

theorem standard_implemented : ∀ decl ∈ OperatorTable.standard.declarations,
    decl.Implemented := by
  intro decl hdecl
  have hdeclares := OperatorTable.declares_of_mem hdecl
  unfold OperatorDecl.Implemented
  split
  · next hfixity =>
    rw [hfixity] at hdeclares
    exact fun _ _ _ _ _ hoperand => ⟨_, codeOf_unary (sign_of_declared hdeclares) hoperand,
      fun draws point enter frames => Code.run_sign draws point enter frames decl.op _⟩
  · exact fun _ _ _ _ _ _ _ _ hleft hright => ⟨_, codeOf_binary hleft hright,
      fun draws point enter frames => Code.run_binary draws point enter frames decl.op _ _⟩

theorem Expr.Declared.compile_ne {e : Expr} (h : e.Declared .standard) (symbol place : String)
    (span : Span) : e.compile ≠ .error (.unsupportedOperator symbol place span) := by
  intro hcompile
  obtain ⟨op, fixity, operand, hnode, hfault⟩ :=
    e.faults_origin [] _ (mem_faults_of_compile hcompile)
  obtain ⟨hfixity, hop⟩ := h.unary op fixity operand span hnode
  rw [operatorFaults_eq_nil.2 ⟨hfixity, sign_of_declared hop⟩] at hfault
  cases hfault

/-- No source fails for an operator: the parser places each where the table declares it, and for
each declaration the compiler has code. -/
theorem build_supports_operators (source : String) :
    (∀ symbol place span,
      build source ≠ .error (.compile (.unsupportedOperator symbol place span))) ∧
    (∀ e, parse source = .ok e → e.Declared .standard) ∧
    ∀ decl ∈ OperatorTable.standard.declarations, decl.Implemented := by
  refine ⟨fun symbol place span hbuild => ?_, fun _ => parse_declared, standard_implemented⟩
  obtain ⟨e, -, h⟩ | ⟨tree, e, hparse, hcompile, h⟩ := build_eq_error.1 hbuild
  · cases h
  · cases h
    exact (parse_declared hparse).compile_ne symbol place span hcompile

/-- Signs of both operands, and a comparison inside parentheses. -/
theorem signedPower_declared :
    let comparison : Expr := .binary .le (.reference ⟨"t", ⟨7, 8⟩⟩ ⟨7, 8⟩)
      (.reference ⟨"y", ⟨12, 13⟩⟩ ⟨12, 13⟩) ⟨7, 13⟩
    let e : Expr := .binary .pow
      (.unary .sub .prefixed (.reference ⟨"x", ⟨1, 2⟩⟩ ⟨1, 2⟩) ⟨0, 2⟩)
      (.unary .add .prefixed comparison ⟨5, 13⟩) ⟨0, 13⟩
    parse "-x ^ +(t <= y)" = .ok e ∧ e.Declared .standard := by
  intro comparison e
  have hparse : parse "-x ^ +(t <= y)" = .ok e := by cbv
  exact ⟨hparse, (build_supports_operators _).2.1 e hparse⟩

end Heightfield
