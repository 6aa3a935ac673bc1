import Heightfield.Proofs.Expr.Context
import Heightfield.Proofs.Expr.Names

/-! Expressions that differ in their bound names, and perhaps in spans, but in nothing else; and the
renaming of one binder, which makes such expressions. -/

namespace Heightfield

/-- The binders around two places, each with its name at the one and at the other, the innermost
first. -/
abbrev Pairing := List (String × String)

namespace Pairing

/-- Two names that mean the same binder, or one name that is bound at neither place. -/
def Same : Pairing → String → String → Prop
  | [], m, m' => m = m'
  | (n, n') :: outer, m, m' => m = n ∧ m' = n' ∨ m ≠ n ∧ m' ≠ n' ∧ Same outer m m'

/-- The pairing under the parameters of a function. -/
def enter (ρ : Pairing) (params params' : List Ident) : Pairing :=
  ((params.zip params').map fun p => (p.1.name, p.2.name)).reverse ++ ρ

end Pairing

mutual

/-- `Alpha ρ e e'`: node for node the same, and names that stand at one place mean the same. -/
inductive Alpha : Pairing → Expr → Expr → Prop
  | number {ρ v sp sp'} : Alpha ρ (.number v sp) (.number v sp')
  | reference {ρ n n' sp sp'} (same : ρ.Same n.name n'.name) :
      Alpha ρ (.reference n sp) (.reference n' sp')
  | call {ρ n n' args args' sp sp'} (same : ρ.Same n.name n'.name)
      (parts : AlphaAll ρ args args') : Alpha ρ (.call n args sp) (.call n' args' sp')
  | unary {ρ op fixity e e' sp sp'} (part : Alpha ρ e e') :
      Alpha ρ (.unary op fixity e sp) (.unary op fixity e' sp')
  | binary {ρ op left left' right right' sp sp'} (first : Alpha ρ left left')
      (second : Alpha ρ right right') :
      Alpha ρ (.binary op left right sp) (.binary op left' right' sp')
  | binding {ρ n n' bound bound' body body' sp sp'} (first : Alpha ρ bound bound')
      (second : Alpha ((n.name, n'.name) :: ρ) body body') :
      Alpha ρ (.binding n bound body sp) (.binding n' bound' body' sp')
  | function {ρ n n' params params' body body' context context' sp sp'}
      (length : params'.length = params.length)
      (distinct : (params'.map (·.name)).Nodup ↔ (params.map (·.name)).Nodup)
      (first : Alpha (Pairing.enter ((n.name, n'.name) :: ρ) params params') body body')
      (second : Alpha ((n.name, n'.name) :: ρ) context context') :
      Alpha ρ (.function n params body context sp) (.function n' params' body' context' sp')
  | conditional {ρ condition condition' positive positive' negative negative' sp sp'}
      (first : Alpha ρ condition condition') (second : Alpha ρ positive positive')
      (third : Alpha ρ negative negative') :
      Alpha ρ (.conditional condition positive negative sp)
        (.conditional condition' positive' negative' sp')

inductive AlphaAll : Pairing → List Expr → List Expr → Prop
  | nil {ρ} : AlphaAll ρ [] []
  | cons {ρ e e' es es'} (first : Alpha ρ e e') (rest : AlphaAll ρ es es') :
      AlphaAll ρ (e :: es) (e' :: es')

end

theorem AlphaAll.length_eq {ρ : Pairing} :
    ∀ {es es' : List Expr}, AlphaAll ρ es es' → es'.length = es.length
  | _, _, .nil => rfl
  | _, _, .cons _ rest => congrArg (· + 1) rest.length_eq

/-- The same place under another name. -/
def Ident.named (n : Ident) (name : String) : Ident := { n with name }

namespace Expr

mutual

/-- The expression with `z` for the name `n` wherever `n` is taken from around the expression. Under
a binder of its own the name means something else, and stays. -/
def rename (n z : String) : Expr → Expr
  | number v sp => number v sp
  | reference m sp => reference (if m.name = n then m.named z else m) sp
  | call m args sp => call (if m.name = n then m.named z else m) (renameAll n z args) sp
  | unary op fixity operand sp => unary op fixity (operand.rename n z) sp
  | binary op left right sp => binary op (left.rename n z) (right.rename n z) sp
  | binding m bound body sp =>
    binding m (bound.rename n z) (if m.name = n then body else body.rename n z) sp
  | function m params body context sp =>
    function m params
      (if m.name = n ∨ n ∈ params.map (·.name) then body else body.rename n z)
      (if m.name = n then context else context.rename n z) sp
  | conditional condition positive negative sp =>
    conditional (condition.rename n z) (positive.rename n z) (negative.rename n z) sp

def renameAll (n z : String) : List Expr → List Expr
  | [] => []
  | e :: es => e.rename n z :: renameAll n z es

end

/-- One binder of a node takes the name `z`, and with it all that refers to the binder. -/
inductive Rebinds (z : String) : Expr → Expr → Prop
  | value {n bound body sp} : Rebinds z (.binding n bound body sp)
      (.binding (n.named z) bound (body.rename n.name z) sp)
  /-- A parameter of the same name hides the function in its body. -/
  | function {n params body context sp} : Rebinds z (.function n params body context sp)
      (.function (n.named z) params
        (if n.name ∈ params.map (·.name) then body else body.rename n.name z)
        (context.rename n.name z) sp)
  | parameter {n earlier p later body context sp} :
      Rebinds z (.function n (earlier ++ p :: later) body context sp)
        (.function n (earlier ++ p.named z :: later) (body.rename p.name z) context sp)

end Expr

end Heightfield
