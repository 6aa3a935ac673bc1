import Heightfield.Proofs.Grammar.Bare
import Mathlib.Data.List.Forall2

/-! Expressions of one shape: node for node the same, up to spans, with names in the same places.
What is asked of two names that stand at one place is a parameter. -/

namespace Heightfield

variable {R : Ident → Ident → Prop}

mutual

inductive Alike (R : Ident → Ident → Prop) : Expr → Expr → Prop
  | number {v sp sp'} : Alike R (.number v sp) (.number v sp')
  | reference {n n' sp sp'} (name : R n n') : Alike R (.reference n sp) (.reference n' sp')
  | call {n n' args args' sp sp'} (name : R n n') (parts : AlikeAll R args args') :
      Alike R (.call n args sp) (.call n' args' sp')
  | unary {op fixity e e' sp sp'} (part : Alike R e e') :
      Alike R (.unary op fixity e sp) (.unary op fixity e' sp')
  | binary {op left left' right right' sp sp'} (first : Alike R left left')
      (second : Alike R right right') :
      Alike R (.binary op left right sp) (.binary op left' right' sp')
  | binding {n n' bound bound' body body' sp sp'} (name : R n n') (first : Alike R bound bound')
      (second : Alike R body body') :
      Alike R (.binding n bound body sp) (.binding n' bound' body' sp')
  | function {n n' params params' body body' context context' sp sp'} (name : R n n')
      (names : List.Forall₂ R params params') (first : Alike R body body')
      (second : Alike R context context') :
      Alike R (.function n params body context sp) (.function n' params' body' context' sp')
  | conditional {condition condition' positive positive' negative negative' sp sp'}
      (first : Alike R condition condition') (second : Alike R positive positive')
      (third : Alike R negative negative') :
      Alike R (.conditional condition positive negative sp)
        (.conditional condition' positive' negative' sp')

inductive AlikeAll (R : Ident → Ident → Prop) : List Expr → List Expr → Prop
  | nil : AlikeAll R [] []
  | cons {e e' es es'} (first : Alike R e e') (rest : AlikeAll R es es') :
      AlikeAll R (e :: es) (e' :: es')

end

theorem alikeAll_iff {es es' : List Expr} : AlikeAll R es es' ↔ List.Forall₂ (Alike R) es es' := by
  constructor
  · intro h
    induction es generalizing es' with
    | nil =>
      cases h
      exact .nil
    | cons e es ih =>
      cases h with
      | cons first rest => exact .cons first (ih rest)
  · intro h
    induction h with
    | nil => exact .nil
    | cons first _ ih => exact .cons first ih

section Bare

theorem map_name_of_forall₂ (hR : ∀ n n', R n n' → n.name = n'.name) {ps ps' : List Ident}
    (h : List.Forall₂ R ps ps') : ps.map (·.name) = ps'.map (·.name) := by
  induction h with
  | nil => rfl
  | cons hp _ ih => rw [List.map_cons, List.map_cons, hR _ _ hp, ih]

theorem map_bare_names (ps : List Ident) :
    ps.map (fun p => Ident.bare p.name) = (ps.map (·.name)).map Ident.bare := by
  rw [List.map_map]
  rfl

mutual

/-- Where no name differs, only spans do. -/
theorem Alike.bare (hR : ∀ n n', R n n' → n.name = n'.name) :
    ∀ {e e' : Expr}, Alike R e e' → e.bare = e'.bare
  | _, _, .number => rfl
  | _, _, .reference name => by rw [Expr.bare, Expr.bare, hR _ _ name]
  | _, _, .call name parts => by rw [Expr.bare, Expr.bare, hR _ _ name, parts.bareAll hR]
  | _, _, .unary part => by rw [Expr.bare, Expr.bare, part.bare hR]
  | _, _, .binary first second => by rw [Expr.bare, Expr.bare, first.bare hR, second.bare hR]
  | _, _, .binding name first second => by
    rw [Expr.bare, Expr.bare, hR _ _ name, first.bare hR, second.bare hR]
  | _, _, .function name names first second => by
    rw [Expr.bare, Expr.bare, hR _ _ name, map_bare_names, map_name_of_forall₂ hR names,
      ← map_bare_names, first.bare hR, second.bare hR]
  | _, _, .conditional first second third => by
    rw [Expr.bare, Expr.bare, first.bare hR, second.bare hR, third.bare hR]

theorem AlikeAll.bareAll (hR : ∀ n n', R n n' → n.name = n'.name) :
    ∀ {es es' : List Expr}, AlikeAll R es es' → Expr.bareAll es = Expr.bareAll es'
  | _, _, .nil => rfl
  | _, _, .cons first rest => by rw [Expr.bareAll, Expr.bareAll, first.bare hR, rest.bareAll hR]

end

end Bare

/-- The same operators, each with operands of one shape. -/
def Expr.Chain.Alike (R : Ident → Ident → Prop) : Expr.Chain → Expr.Chain → Prop :=
  List.Forall₂ fun r r' => r.1 = r'.1 ∧ Heightfield.Alike R r.2 r'.2

theorem Alike.combine {op : Op} {left left' right right' : Expr} (hl : Alike R left left')
    (hr : Alike R right right') : Alike R (.combine op left right) (.combine op left' right') :=
  .binary hl hr

/-- Climbing looks at the operators alone. -/
theorem Alike.climbFrom {left left' : Expr} {rest rest' : Expr.Chain} (least : Nat)
    (h : Alike R left left') (hrest : rest.Alike R rest') :
    Alike R (Expr.climbFrom left rest least).val.1 (Expr.climbFrom left' rest' least).val.1 ∧
      (Expr.climbFrom left rest least).val.2.Alike R (Expr.climbFrom left' rest' least).val.2 := by
  fun_induction Expr.climbFrom left rest least generalizing left' rest' with
  | case1 left least =>
    cases hrest
    rw [Expr.climbFrom]
    exact ⟨h, .nil⟩
  | case2 left least decl operand tail hle right after _ hr result _ hr' ih ih' =>
    cases hrest with
    | @cons _ r' _ tail' hoperand htail =>
      obtain ⟨decl', operand'⟩ := r'
      obtain ⟨rfl, hoperand⟩ := hoperand
      obtain ⟨hright, hafter⟩ := ih hoperand htail
      rw [hr] at hright hafter
      rw [hr'] at ih'
      rw [Expr.climbFrom_admitted hle]
      exact ih' (h.combine hright) hafter
  | case3 left least decl operand tail hle =>
    cases hrest with
    | @cons _ r' _ tail' hoperand htail =>
      obtain ⟨decl', operand'⟩ := r'
      obtain ⟨rfl, hoperand⟩ := hoperand
      rw [Expr.climbFrom_refused hle]
      exact ⟨h, .cons ⟨rfl, hoperand⟩ htail⟩

theorem Alike.climb {first first' : Expr} {rest rest' : Expr.Chain} (h : Alike R first first')
    (hrest : rest.Alike R rest') : Alike R (Expr.climb first rest) (Expr.climb first' rest') :=
  (h.climbFrom 0 hrest).1

end Heightfield
