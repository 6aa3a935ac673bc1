import Heightfield.Proofs.Grammar.Bare

/-! A table with one more tier. The tiers above the new one have a greater precedence than before,
the others the precedence they had; the order of all is the same, and nothing but their order is
looked at when operators are climbed. -/

namespace Heightfield

/-- The precedence that was `p`, once a tier stands over the `below` loosest ones. -/
def raised (below p : Nat) : Nat := if below < p then p + 1 else p

theorem raised_le_raised_iff {below p q : Nat} : raised below p ≤ raised below q ↔ p ≤ q := by
  unfold raised
  split <;> split <;> omega

theorem raised_lt_raised_iff {below p q : Nat} : raised below p < raised below q ↔ p < q := by
  unfold raised
  split <;> split <;> omega

namespace OperatorDecl

/-- The same declaration in a table that has a tier more, under the first `above` ones and over the
last `below`. -/
def displaced (above below : Nat) (d : OperatorDecl) : OperatorDecl :=
  { d with
    tier := if d.tier < above then d.tier else d.tier + 1
    precedence := raised below d.precedence }

variable (above below : Nat) (d : OperatorDecl)

@[simp] theorem displaced_op : (d.displaced above below).op = d.op := rfl

@[simp] theorem displaced_fixity : (d.displaced above below).fixity = d.fixity := rfl

@[simp] theorem displaced_precedence :
    (d.displaced above below).precedence = raised below d.precedence := rfl

/-- The right operand of `d` takes in the same operators in both tables. -/
theorem nextLeast_displaced_le_iff (d' : OperatorDecl) :
    (d.displaced above below).nextLeast ≤ (d'.displaced above below).precedence ↔
      d.nextLeast ≤ d'.precedence := by
  have hfixity := d.displaced_fixity above below
  by_cases h : d.fixity = .infixed .right
  · rw [nextLeast, nextLeast, if_pos h, if_pos (hfixity.trans h)]
    exact raised_le_raised_iff
  · rw [nextLeast, nextLeast, if_neg h, if_neg (hfixity ▸ h)]
    exact raised_lt_raised_iff

end OperatorDecl

namespace Expr

variable {above below : Nat}

def Chain.displaced (above below : Nat) (rest : Chain) : Chain :=
  rest.map fun (decl, e) => (decl.displaced above below, e)

/-- What is climbed depends on the order of precedences alone: bounds that admit the same operators
of both chains take the same operands into the same tree. -/
theorem climbFrom_displaced (left : Expr) (rest : Chain) {least least' : Nat}
    (hleast : ∀ d : OperatorDecl,
      least' ≤ (d.displaced above below).precedence ↔ least ≤ d.precedence) :
    (climbFrom left (rest.displaced above below) least').val =
      ((climbFrom left rest least).val.1,
        Chain.displaced above below (climbFrom left rest least).val.2) := by
  fun_induction climbFrom left rest least generalizing least' with
  | case1 left least => rw [Chain.displaced, List.map_nil, climbFrom]
  | case2 left least decl operand tail h right after _ hr result _ hr' ih ih' =>
    have hnext := decl.nextLeast_displaced_le_iff above below
    rw [Chain.displaced, List.map_cons, climbFrom_admitted ((hleast decl).2 h), ← Chain.displaced,
      ih hnext, hr]
    simp only [OperatorDecl.displaced_op]
    rw [ih' hleast, hr']
  | case3 left least decl operand tail h =>
    rw [Chain.displaced, List.map_cons, climbFrom_refused fun h' => h ((hleast decl).1 h')]

theorem climb_displaced (first : Expr) (rest : Chain) :
    climb first (rest.displaced above below) = climb first rest := by
  have hleast (d : OperatorDecl) : 0 ≤ (d.displaced above below).precedence ↔ 0 ≤ d.precedence :=
    iff_of_true (Nat.zero_le _) (Nat.zero_le _)
  rw [climb, climb, climbFrom_displaced first rest hleast]

end Expr

namespace OperatorTable

/-- The operators of `tiers`, the first of which has index `start` of `total`. -/
def declared (total start : Nat) (tiers : List Tier) : List OperatorDecl :=
  (tiers.zipIdx start).flatMap fun (tier, i) =>
    tier.ops.map fun op => ⟨op, tier.fixity, i, total - i⟩

theorem declarations_eq (table : OperatorTable) :
    table.declarations = declared table.tiers.length 0 table.tiers := rfl

section

variable (total start : Nat) (tiers others : List Tier)

theorem declared_cons (tier : Tier) : declared total start (tier :: tiers) =
    (tier.ops.map fun op => ⟨op, tier.fixity, start, total - start⟩) ++
      declared total (start + 1) tiers := rfl

theorem declared_append : declared total start (tiers ++ others) =
    declared total start tiers ++ declared total (start + tiers.length) others := by
  rw [declared, List.zipIdx_append, List.flatMap_append]
  rfl

end

variable {above below start : Nat}

theorem declared_above (tiers : List Tier) (h : start + tiers.length ≤ above) :
    declared (above + below + 1) start tiers =
      (declared (above + below) start tiers).map (.displaced above below) := by
  induction tiers generalizing start with
  | nil => rfl
  | cons tier tiers ih =>
    rw [List.length_cons] at h
    have hprecedence : raised below (above + below - start) = above + below + 1 - start := by
      rw [raised, if_pos (by omega)]
      omega
    rw [declared_cons, declared_cons, List.map_append, List.map_map, ih (by omega)]
    congr 2
    funext op
    simp only [Function.comp_apply, OperatorDecl.displaced, hprecedence,
      if_pos (show start < above by omega)]

theorem declared_below (tiers : List Tier) (h : above ≤ start) :
    declared (above + below + 1) (start + 1) tiers =
      (declared (above + below) start tiers).map (.displaced above below) := by
  induction tiers generalizing start with
  | nil => rfl
  | cons tier tiers ih =>
    have hprecedence : raised below (above + below - start) = above + below + 1 - (start + 1) := by
      rw [raised, if_neg (by omega)]
      omega
    rw [declared_cons, declared_cons, List.map_append, List.map_map, ih (by omega)]
    congr 2
    funext op
    simp only [Function.comp_apply, OperatorDecl.displaced, hprecedence,
      if_neg (show ¬ start < above by omega)]

/-- The declarations of both tables, with those of the tier that only one of them has. -/
theorem declarations_insert (before after : List Tier) (tier : Tier) :
    ∃ front back own : List OperatorDecl,
      (⟨before ++ after⟩ : OperatorTable).declarations = front ++ back ∧
      (⟨before ++ tier :: after⟩ : OperatorTable).declarations =
        front.map (.displaced before.length after.length) ++
          (own ++ back.map (.displaced before.length after.length)) ∧
      ∀ d ∈ own, d.op ∈ tier.ops := by
  have htotal : (before ++ tier :: after).length = before.length + after.length + 1 := by
    rw [List.length_append, List.length_cons, Nat.add_assoc]
  rw [declarations_eq, declarations_eq, declared_append, declared_append, declared_cons]
  simp only [htotal, List.length_append, Nat.zero_add]
  rw [declared_above before (by omega), declared_below after (Nat.le_refl _)]
  refine ⟨_, _, _, rfl, rfl, fun d hd => ?_⟩
  obtain ⟨op, hop, rfl⟩ := List.mem_map.1 hd
  exact hop

/-- Outside the operators of `tier`, both tables find the same, at displaced precedences. -/
structure Extends (tier : Tier) (above below : Nat) (table extended : OperatorTable) : Prop where
  prefixed? : ∀ op ∉ tier.ops,
    extended.prefixed? op = (table.prefixed? op).map (.displaced above below)
  infixed? : ∀ op ∉ tier.ops,
    extended.infixed? op = (table.infixed? op).map (.displaced above below)

/-- A tier without the operator changes nothing but the precedence of what is found. -/
theorem find?_insert (before after : List Tier) {tier : Tier} {op : Op} (h : op ∉ tier.ops)
    (keep : Fixity → Bool) :
    ((⟨before ++ tier :: after⟩ : OperatorTable).declarations.filter (keep ·.fixity)).find?
        (·.op = op) =
      (((⟨before ++ after⟩ : OperatorTable).declarations.filter (keep ·.fixity)).find?
        (·.op = op)).map (.displaced before.length after.length) := by
  obtain ⟨front, back, own, hdecls, hdecls', hown⟩ := declarations_insert before after tier
  have hnone : (own.filter (keep ·.fixity)).find? (·.op = op) = none := by
    refine List.find?_eq_none.2 fun d hd hop => ?_
    rw [decide_eq_true_eq] at hop
    exact h (hop ▸ hown d (List.mem_filter.1 hd).1)
  rw [hdecls, hdecls']
  simp only [List.filter_append, List.find?_append, List.filter_map, List.find?_map, hnone,
    Option.none_or, Option.map_or]
  rfl

theorem extends_insert (before after : List Tier) (tier : Tier) :
    Extends tier before.length after.length ⟨before ++ after⟩ ⟨before ++ tier :: after⟩ where
  prefixed? _ h := find?_insert before after h (!·.isInfixed)
  infixed? _ h := find?_insert before after h (·.isInfixed)

end OperatorTable

end Heightfield
