import Heightfield.Proofs.Grammar.Bare

/-! A climbed chain is split at its loosest operator: what stands before it is its left operand,
what stands behind it the right one, and both are split in the same way. Of several loosest
operators the first right-associative one is taken; without such, the last. -/

namespace Heightfield.Expr

/-- Between `before` and `behind`, no operator of which is looser, a chain is split at `decl`. -/
inductive SplitsAt (before : Chain) (decl : OperatorDecl) (behind : Chain) : Prop
  /-- The first of its precedence that is right-associative. -/
  | firstRight (loosest : ∀ part ∈ before ++ behind, decl.precedence ≤ part.1.precedence)
      (right : decl.fixity = .infixed .right)
      (first : ∀ part ∈ before,
        part.1.precedence = decl.precedence → part.1.fixity ≠ .infixed .right)
  /-- The last of its precedence, of which none is right-associative. -/
  | last (loosest : ∀ part ∈ before ++ behind, decl.precedence ≤ part.1.precedence)
      (notRight : decl.fixity ≠ .infixed .right)
      (noneRight : ∀ part ∈ before ++ behind,
        part.1.precedence = decl.precedence → part.1.fixity ≠ .infixed .right)
      (last : ∀ part ∈ behind, part.1.precedence ≠ decl.precedence)

/-- `Split first rest e`: the chain of `first` and `rest` makes up `e`, by splits throughout. -/
inductive Split : Expr → Chain → Expr → Prop
  | operand (e : Expr) : Split e [] e
  | node {first before decl operand behind left right} (place : SplitsAt before decl behind)
      (one : Split first before left) (other : Split operand behind right) :
      Split first (before ++ (decl, operand) :: behind)
        (.binary decl.op left right ⟨left.span.start, right.span.stop⟩)

/-- The operand that a chain ends with. -/
def lastOperand : Expr → Chain → Expr
  | first, [] => first
  | _, (_, operand) :: rest => lastOperand operand rest

/-- `InOrder first rest e`: from left to right, `e` is over these operands and has these operators
between them. Each node spans from its leftmost operand to its rightmost. -/
inductive InOrder : Expr → Chain → Expr → Prop
  | operand (e : Expr) : InOrder e [] e
  | node {first before decl operand behind left right} (one : InOrder first before left)
      (other : InOrder operand behind right) :
      InOrder first (before ++ (decl, operand) :: behind) (.binary decl.op left right
        ⟨first.span.start, (lastOperand operand behind).span.stop⟩)

section Climbing

variable {decl : OperatorDecl} {first operand left : Expr} {rest before behind : Chain}
  {least : Nat}

theorem le_nextLeast (d : OperatorDecl) : d.precedence ≤ d.nextLeast := by
  unfold OperatorDecl.nextLeast
  split <;> omega

theorem climbFrom_suffix (left : Expr) (rest : Chain) (least : Nat) :
    (climbFrom left rest least).val.2 <:+ rest := by
  fun_induction climbFrom left rest least with
  | case1 => exact List.suffix_refl _
  | case2 left least d e tail h right after taken hr result taken' hr' ih ih' =>
    rw [hr] at ih
    rw [hr'] at ih'
    exact (ih'.trans ih).trans (List.suffix_cons _ _)
  | case3 => exact List.suffix_refl _

/-- A bound that admits all of a chain is none. -/
theorem climbFrom_of_le (h : ∀ part ∈ rest, least ≤ part.1.precedence) :
    (climbFrom left rest least).val = (climb left rest, []) := by
  have hzero : (climbFrom left rest least).val = (climbFrom left rest 0).val := by
    fun_induction climbFrom left rest least with
    | case1 left least => rw [climbFrom]
    | case2 left least d e tail hd right after taken hr result taken' hr' ih ih' =>
      have hsuffix := climbFrom_suffix e tail d.nextLeast
      rw [hr] at hsuffix
      have hafter := ih' fun part hpart =>
        h part (List.mem_cons_of_mem _ (hsuffix.subset hpart))
      rw [hr'] at hafter
      rw [climbFrom_admitted (Nat.zero_le _), hr]
      exact hafter
    | case3 left least d e tail hd => exact absurd (h _ List.mem_cons_self) hd
  rw [hzero]
  exact Prod.ext rfl (climbFrom_zero_rest left rest)

/-- What climbing a chain comes to once `tail` stands behind it. -/
def resume (tail : Chain) (least : Nat) : Expr × Chain → Expr × Chain
  | (e, []) => (climbFrom e tail least).val
  | (e, part :: rest) => (e, part :: rest ++ tail)

theorem resume_refused (h : decl.precedence < least) (result : Expr × Chain) :
    resume ((decl, operand) :: behind) least result =
      (result.1, result.2 ++ (decl, operand) :: behind) := by
  obtain ⟨e, _ | ⟨part, rest⟩⟩ := result
  · exact climbFrom_refused (Nat.not_le.2 h) _ _ _
  · rfl

/-- An operator that no right operand before it takes is met with all before it climbed. -/
theorem climbFrom_append (h : ∀ part ∈ before, decl.precedence < part.1.nextLeast) :
    (climbFrom left (before ++ (decl, operand) :: behind) least).val =
      resume ((decl, operand) :: behind) least (climbFrom left before least).val := by
  fun_induction climbFrom left before least with
  | case1 left least => rfl
  | case2 left least d e tail hd right after taken hr result taken' hr' ih ih' =>
    have hsuffix := climbFrom_suffix e tail d.nextLeast
    rw [hr] at hsuffix
    have hright := ih fun part hpart => h part (List.mem_cons_of_mem _ hpart)
    rw [hr, resume_refused (h _ List.mem_cons_self)] at hright
    have hafter := ih' fun part hpart => h part (List.mem_cons_of_mem _ (hsuffix.subset hpart))
    rw [hr'] at hafter
    rw [List.cons_append, climbFrom_admitted hd, hright]
    exact hafter
  | case3 left least d e tail hd => exact climbFrom_refused hd _ _ _

namespace SplitsAt

theorem loosest (h : SplitsAt before decl behind) :
    ∀ part ∈ before ++ behind, decl.precedence ≤ part.1.precedence := by
  cases h with
  | firstRight loosest => exact loosest
  | last loosest => exact loosest

/-- Right operands before the place end there. -/
theorem lt_nextLeast (h : SplitsAt before decl behind) :
    ∀ part ∈ before, decl.precedence < part.1.nextLeast := by
  intro part hpart
  have hmem : part ∈ before ++ behind := List.mem_append_left _ hpart
  have hright : part.1.precedence = decl.precedence → part.1.fixity ≠ .infixed .right := by
    cases h with
    | firstRight _ _ first => exact first part hpart
    | last _ _ noneRight => exact noneRight part hmem
  rcases Nat.lt_or_eq_of_le (h.loosest part hmem) with hlt | heq
  · exact Nat.lt_of_lt_of_le hlt (le_nextLeast part.1)
  · rw [OperatorDecl.nextLeast, if_neg (hright heq.symm)]
    omega

/-- The right operand at the place has all that stands behind it. -/
theorem nextLeast_le (h : SplitsAt before decl behind) :
    ∀ part ∈ behind, decl.nextLeast ≤ part.1.precedence := by
  intro part hpart
  have hle := h.loosest part (List.mem_append_right _ hpart)
  cases h with
  | firstRight _ right => rwa [OperatorDecl.nextLeast, if_pos right]
  | last _ notRight _ last =>
    have hne := last part hpart
    rw [OperatorDecl.nextLeast, if_neg notRight]
    omega

end SplitsAt

theorem climb_splitsAt (h : SplitsAt before decl behind) :
    climb first (before ++ (decl, operand) :: behind) =
      combine decl.op (climb first before) (climb operand behind) := by
  have hbefore : (climbFrom first before 0).val = (climb first before, []) :=
    climbFrom_of_le fun _ _ => Nat.zero_le _
  have hbehind : (climbFrom operand behind decl.nextLeast).val = (climb operand behind, []) :=
    climbFrom_of_le h.nextLeast_le
  rw [climb, climbFrom_append h.lt_nextLeast, hbefore, resume, climbFrom_admitted (Nat.zero_le _),
    hbehind, climbFrom]

/-- A chain with an operator has a place where it is split. -/
theorem exists_splitsAt (part : OperatorDecl × Expr) (rest : Chain) :
    ∃ before decl operand behind, part :: rest = before ++ (decl, operand) :: behind ∧
      SplitsAt before decl behind := by
  induction rest generalizing part with
  | nil =>
    obtain ⟨d, e⟩ := part
    refine ⟨[], d, e, [], rfl, ?_⟩
    by_cases hd : d.fixity = .infixed .right
    · exact .firstRight nofun hd nofun
    · exact .last nofun hd nofun nofun
  | cons next rest ih =>
    obtain ⟨d, e⟩ := part
    obtain ⟨before, decl, operand, behind, heq, h⟩ := ih next
    have hrest : ∀ part ∈ next :: rest, decl.precedence ≤ part.1.precedence := by
      intro part hpart
      rw [heq, List.mem_append, List.mem_cons] at hpart
      rcases hpart with hpart | rfl | hpart
      · exact h.loosest part (List.mem_append_left _ hpart)
      · exact Nat.le_refl _
      · exact h.loosest part (List.mem_append_right _ hpart)
    -- The place of the rest is that of the whole, unless the operator in front is looser, or as
    -- loose and right-associative.
    by_cases hfront : d.precedence < decl.precedence ∨
        d.precedence = decl.precedence ∧ d.fixity = .infixed .right
    · refine ⟨[], d, e, next :: rest, rfl, ?_⟩
      have hloosest : ∀ part ∈ next :: rest, d.precedence ≤ part.1.precedence := by
        intro part hpart
        have hle := hrest part hpart
        omega
      by_cases hd : d.fixity = .infixed .right
      · exact .firstRight hloosest hd nofun
      · have hlt : ∀ part ∈ next :: rest, part.1.precedence ≠ d.precedence := by
          intro part hpart
          have hle := hrest part hpart
          rcases hfront with hlt | ⟨-, hright⟩
          · omega
          · exact absurd hright hd
        exact .last hloosest hd (fun part hpart heq => absurd heq (hlt part hpart)) hlt
    · have hle : decl.precedence ≤ d.precedence :=
        Nat.le_of_not_lt fun hlt => hfront (.inl hlt)
      have hright : d.precedence = decl.precedence → d.fixity ≠ .infixed .right :=
        fun heq hd => hfront (.inr ⟨heq, hd⟩)
      refine ⟨(d, e) :: before, decl, operand, behind, by rw [heq, List.cons_append], ?_⟩
      cases h with
      | firstRight loosest right first =>
        exact .firstRight (List.forall_mem_cons.2 ⟨hle, loosest⟩) right
          (List.forall_mem_cons.2 ⟨hright, first⟩)
      | last loosest notRight noneRight last =>
        exact .last (List.forall_mem_cons.2 ⟨hle, loosest⟩) notRight
          (List.forall_mem_cons.2 ⟨hright, noneRight⟩) last

end Climbing

theorem Split.eq_climb {first e : Expr} {rest : Chain} (h : Split first rest e) :
    e = climb first rest := by
  induction h with
  | operand e => rw [climb, climbFrom]
  | node place _ _ ih ih' =>
    subst ih ih'
    exact (climb_splitsAt place).symm

theorem split_climb (first : Expr) (rest : Chain) : Split first rest (climb first rest) := by
  cases rest with
  | nil =>
    rw [climb, climbFrom]
    exact .operand first
  | cons part tail =>
    obtain ⟨before, decl, operand, behind, heq, place⟩ := exists_splitsAt part tail
    rw [heq, climb_splitsAt place]
    exact .node place (split_climb first before) (split_climb operand behind)
termination_by rest.length
decreasing_by
  all_goals
    rw [heq, List.length_append, List.length_cons]
    omega

theorem lastOperand_append (first : Expr) (before : Chain) (decl : OperatorDecl) (operand : Expr)
    (behind : Chain) : lastOperand first (before ++ (decl, operand) :: behind) =
      lastOperand operand behind := by
  induction before generalizing first with
  | nil => rfl
  | cons part before ih => exact ih part.2

theorem InOrder.span_eq {first e : Expr} {rest : Chain} (h : InOrder first rest e) :
    e.span = ⟨first.span.start, (lastOperand first rest).span.stop⟩ := by
  cases h with
  | operand => rfl
  | node => rw [lastOperand_append, span]

theorem Split.inOrder {first e : Expr} {rest : Chain} (h : Split first rest e) :
    InOrder first rest e := by
  induction h with
  | operand e => exact .operand e
  | node _ _ _ ih ih' =>
    rw [ih.span_eq, ih'.span_eq]
    exact .node ih ih'

/-- The whole of a chain is climbed, and to the one tree that splits at the loosest operators make;
it has the operands and the operators in their order. -/
theorem climb_splits_at_loosest (first : Expr) (rest : Chain) :
    (climbFrom first rest 0).val.2 = [] ∧
      (∀ e, Split first rest e ↔ e = climb first rest) ∧
      InOrder first rest (climb first rest) := by
  refine ⟨climbFrom_zero_rest first rest, fun e => ⟨Split.eq_climb, ?_⟩, ?_⟩
  · rintro rfl
    exact split_climb first rest
  · exact (split_climb first rest).inOrder

end Heightfield.Expr
