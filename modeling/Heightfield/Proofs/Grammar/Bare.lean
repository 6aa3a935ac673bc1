import Heightfield.Expr.Climb

/-! Trees up to spans. -/

namespace Heightfield

def Ident.bare (name : String) : Ident := ⟨name, ⟨0, 0⟩⟩

namespace Expr

mutual

/-- The tree with every span the same. -/
def bare : Expr → Expr
  | number value _ => number value ⟨0, 0⟩
  | reference name _ => reference (.bare name.name) ⟨0, 0⟩
  | call callee args _ => call (.bare callee.name) (bareAll args) ⟨0, 0⟩
  | unary op fixity operand _ => unary op fixity operand.bare ⟨0, 0⟩
  | binary op left right _ => binary op left.bare right.bare ⟨0, 0⟩
  | binding name bound body _ => binding (.bare name.name) bound.bare body.bare ⟨0, 0⟩
  | function name params body context _ =>
    function (.bare name.name) (params.map fun p => .bare p.name) body.bare context.bare ⟨0, 0⟩
  | conditional condition positive negative _ =>
    conditional condition.bare positive.bare negative.bare ⟨0, 0⟩

def bareAll : List Expr → List Expr
  | [] => []
  | e :: es => e.bare :: bareAll es

end

theorem bareAll_eq (es : List Expr) : bareAll es = es.map bare := by
  induction es with
  | nil => rfl
  | cons e es ih => rw [bareAll, ih, List.map_cons]

theorem bare_span (e : Expr) : e.bare.span = ⟨0, 0⟩ := by
  cases e <;> rfl

theorem bare_combine (op : Op) (left right : Expr) :
    (combine op left right).bare = combine op left.bare right.bare := by
  rw [combine, combine, bare_span, bare_span]
  rfl

theorem climbFrom_admitted {decl : OperatorDecl} {least : Nat} (h : least ≤ decl.precedence)
    (left operand : Expr) (tail : Chain) :
    (climbFrom left ((decl, operand) :: tail) least).val =
      (climbFrom
        (combine decl.op left (climbFrom operand tail decl.nextLeast).val.1)
        (climbFrom operand tail decl.nextLeast).val.2 least).val := by
  rw [climbFrom, if_pos h]

theorem climbFrom_refused {decl : OperatorDecl} {least : Nat} (h : ¬ least ≤ decl.precedence)
    (left operand : Expr) (tail : Chain) :
    (climbFrom left ((decl, operand) :: tail) least).val = (left, (decl, operand) :: tail) := by
  rw [climbFrom, if_neg h]

def Chain.bare (rest : Chain) : Chain := rest.map fun (decl, e) => (decl, e.bare)

theorem climbFrom_bare (left : Expr) (rest : Chain) (least : Nat) :
    (climbFrom left.bare rest.bare least).val =
      ((climbFrom left rest least).val.1.bare, Chain.bare (climbFrom left rest least).val.2) := by
  fun_induction climbFrom left rest least with
  | case1 left least => rw [Chain.bare, List.map_nil, climbFrom]
  | case2 left least decl operand tail h right after _ hr result _ hr' ih ih' =>
    rw [Chain.bare, List.map_cons, climbFrom_admitted h, ← Chain.bare, ih, hr, ← bare_combine, ih',
      hr']
  | case3 left least decl operand tail h =>
    rw [Chain.bare, List.map_cons, climbFrom_refused h]

/-- Climbing does not look at spans. -/
theorem climb_bare (first : Expr) (rest : Chain) :
    (climb first rest).bare = climb first.bare rest.bare := by
  rw [climb, climb, climbFrom_bare]

end Expr

end Heightfield
