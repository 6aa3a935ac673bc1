import Heightfield.Parse
import Heightfield.Proofs.Grammar.Reading
import Heightfield.Proofs.Grammar.Tiers

/-! Two parsers that read the same tokens and give answers that correspond, whatever was refused
before. Those over a table and over the same table with another tier are such a pair, where no
token is an operator of that tier. -/

namespace Heightfield

def Cursor.Clean (clean : Token → Prop) (c : Cursor) : Prop := ∀ l ∈ c.rest, clean l.token

namespace Parser

variable {α α' β β' : Type} {clean : Token → Prop} {g : α → α'} {k : β → β'}
  {p q : Parser α} {p' q' : Parser α'}

/-- Both refuse, or both read up to the same place and `g` gives one answer from the other. -/
inductive Answers (clean : Token → Prop) (g : α → α') :
    Option (α × Cursor) → Option (α' × Cursor) → Prop
  | refused : Answers clean g none none
  | read {a d} (h : d.Clean clean) : Answers clean g (some (a, d)) (some (g a, d))

theorem Answers.cases {x : Option (α × Cursor) × Furthest} {x' : Option (α' × Cursor) × Furthest}
    (h : Answers clean g x.1 x'.1) :
    (∃ f f', x = (none, f) ∧ x' = (none, f')) ∨
      ∃ a d f f', x = (some (a, d), f) ∧ x' = (some (g a, d), f') ∧ d.Clean clean := by
  obtain ⟨answer, f⟩ := x
  obtain ⟨answer', f'⟩ := x'
  cases h with
  | refused => exact .inl ⟨f, f', rfl, rfl⟩
  | read hd => exact .inr ⟨_, _, f, f', rfl, rfl, hd⟩

/-- Before clean tokens, `p` and `p'` answer alike. -/
def Matches (clean : Token → Prop) (g : α → α') (p : Parser α) (p' : Parser α') : Prop :=
  ∀ c f f', c.Clean clean → Answers clean g (p c f).1 (p' c f').1

namespace Matches

theorem pure (a : α) : Matches clean g (pure a) (Pure.pure (g a)) := fun _ _ _ hc => .read hc

theorem bind (hp : Matches clean g p p') {next : α → Parser β} {next' : α' → Parser β'}
    (hnext : ∀ a, Matches clean k (next a) (next' (g a))) :
    Matches clean k (p >>= next) (p' >>= next') := by
  intro c f f' hc
  rw [bind_eq, bind_eq]
  obtain ⟨f₁, f₁', hr, hr'⟩ | ⟨a, d, f₁, f₁', hr, hr', hd⟩ := (hp c f f' hc).cases
  · rw [hr, hr']
    exact .refused
  · rw [hr, hr']
    exact hnext a d f₁ f₁' hd

theorem orElse (hp : Matches clean g p p') (hq : Matches clean g q q') :
    Matches clean g (p <|> q) (p' <|> q') := by
  intro c f f' hc
  rw [orElse_eq, orElse_eq]
  obtain ⟨f₁, f₁', hr, hr'⟩ | ⟨a, d, f₁, f₁', hr, hr', hd⟩ := (hp c f f' hc).cases
  · rw [hr, hr']
    exact hq c f₁ f₁' hc
  · rw [hr, hr']
    exact .read hd

theorem many (hp : Matches clean g p p') :
    Matches clean (List.map g) (many p) (Parser.many p') := by
  intro c f f' hc
  induction hlength : c.rest.length using Nat.strongRecOn generalizing c f f' with
  | ind n ih =>
    subst hlength
    rw [many_eq p, many_eq p']
    obtain ⟨f₁, f₁', hr, hr'⟩ | ⟨a, d, f₁, f₁', hr, hr', hd⟩ := (hp c f f' hc).cases
    · rw [hr, hr']
      exact .read hc
    rw [hr, hr']
    by_cases hlt : d.rest.length < c.rest.length
    · simp only [if_pos hlt]
      obtain ⟨f₂, f₂', hm, hm'⟩ | ⟨as, d', f₂, f₂', hm, hm', hd'⟩ := (ih _ hlt d f₁ f₁' hd rfl).cases
      · rw [hm, hm']
        exact .refused
      · rw [hm, hm']
        exact .read hd'
    · simp only [if_neg hlt]
      exact .read hd

theorem token {accept : Token → Option α} {accept' : Token → Option α'}
    {expected expectedAtEnd expected' expectedAtEnd' : List Expected}
    (h : ∀ t, clean t → accept' t = (accept t).map g) :
    Matches clean (Prod.map g id) (token accept expected expectedAtEnd)
      (Parser.token accept' expected' expectedAtEnd') := by
  rintro ⟨rest, stop⟩ f f' hc
  cases rest with
  | nil => exact .refused
  | cons l rest =>
    obtain ⟨hl, hrest⟩ := List.forall_mem_cons.1 hc
    simp only [Parser.token, h l.token hl]
    cases accept l.token with
    | none => exact .refused
    | some a => exact .read hrest

/-- A parser of one token matches itself. -/
theorem token_self (accept : Token → Option α) (expected expectedAtEnd : List Expected) :
    Matches clean id (Parser.token accept expected expectedAtEnd)
      (Parser.token accept expected expectedAtEnd) := by
  have h : Matches clean (Prod.map id id) (Parser.token accept expected expectedAtEnd)
      (Parser.token accept expected expectedAtEnd) := token fun _ _ => Option.map_id_apply.symm
  rwa [Prod.map_id] at h

theorem fixed (t : Token) : Matches clean id (fixed t) (Parser.fixed t) :=
  (token_self _ _ _).bind fun _ => pure _

theorem ident : Matches clean id ident Parser.ident :=
  (token_self _ _ _).bind fun _ => pure _

theorem number : Matches clean id number Parser.number :=
  (token_self _ _ _).bind fun _ => pure _

theorem lastStop : Matches clean id lastStop Parser.lastStop := fun _ _ _ hc => .read hc

theorem endOfInput : Matches clean id endOfInput Parser.endOfInput := by
  intro c f f' hc
  unfold Parser.endOfInput
  split
  · exact .read hc
  · exact .refused

theorem parenthesized (hp : Matches clean g p p') :
    Matches clean g (parenthesized p) (Parser.parenthesized p') :=
  (fixed _).bind fun _ => hp.bind fun _ => (fixed _).bind fun _ => pure _

theorem separated (hp : Matches clean g p p') (t : Token) :
    Matches clean (List.map g) (separated p (Parser.fixed t))
      (Parser.separated p' (Parser.fixed t)) := by
  refine orElse (hp.bind fun first => ?_) (pure [])
  exact ((fixed t).bind fun _ => hp).many.bind fun others => pure (first :: others)

end Matches

/-- A core matches itself as soon as the expressions in it do. -/
def SelfMatching (clean : Token → Prop) (core : Parser Expr → Parser Expr) : Prop :=
  ∀ expr expr', Matches clean id expr expr' → Matches clean id (core expr) (core expr')

theorem term_selfMatching : SelfMatching clean term := by
  intro expr expr' h
  have hargs := (h.separated .comma).parenthesized
  rw [List.map_id_fun] at hargs
  have hcall : Matches clean id (referenceOrCall expr) (referenceOrCall expr') := by
    refine Matches.ident.bind fun name => .orElse (hargs.bind fun args => ?_) (.pure _)
    exact Matches.lastStop.bind fun stop => .pure (Expr.call name args ⟨name.span.start, stop⟩)
  exact Matches.number.orElse (hcall.orElse h.parenthesized)

section Tables

variable {tier : Tier} {above below : Nat} {table extended : OperatorTable}

/-- The token is no operator of the tier. -/
def OutsideTier (tier : Tier) (t : Token) : Prop := ∀ op ∈ tier.ops, t ≠ .operator op

theorem operator_matches {look look' : Op → Option OperatorDecl} {decls decls' : List OperatorDecl}
    {move : OperatorDecl → OperatorDecl} (h : ∀ op ∉ tier.ops, look' op = (look op).map move) :
    Matches (OutsideTier tier) (Prod.map move id) (operator look decls) (operator look' decls') := by
  refine Matches.token fun t ht => ?_
  cases t with
  | operator op => exact h op fun hop => ht op hop rfl
  | _ => rfl

theorem foldr_underPrefix_displaced (ops : List (OperatorDecl × Span)) (e : Expr) :
    (ops.map (Prod.map (.displaced above below) id)).foldr underPrefix e =
      ops.foldr underPrefix e := by
  rw [List.foldr_map]
  rfl

variable (h : table.Extends tier above below extended)

include h

theorem operand_matches {core core' : Parser Expr}
    (hcore : Matches (OutsideTier tier) id core core') :
    Matches (OutsideTier tier) id (operand table core) (operand extended core') := by
  refine (operator_matches h.prefixed?).many.bind fun ops => hcore.bind fun e => ?_
  rw [foldr_underPrefix_displaced]
  exact .pure _

theorem chain_matches {core core' : Parser Expr}
    (hcore : Matches (OutsideTier tier) id core core') :
    Matches (OutsideTier tier) id (chain table core) (chain extended core') := by
  have hoperand := operand_matches h hcore
  have hoperation : Matches (OutsideTier tier) (Prod.map (.displaced above below) id)
      (operation table core) (operation extended core') := by
    refine (operator_matches h.infixed?).bind fun r => hoperand.bind fun e => ?_
    exact .pure (r.1, e)
  refine hoperand.bind fun first => hoperation.many.bind fun rest => ?_
  have hclimb : Expr.climb first (rest.map (Prod.map (.displaced above below) id)) =
      Expr.climb first rest := Expr.climb_displaced first rest
  rw [id_eq, hclimb]
  exact .pure _

theorem expression_matches {core : Parser Expr → Parser Expr}
    (hcore : SelfMatching (OutsideTier tier) core) :
    ∀ depth, Matches (OutsideTier tier) id (expression table core depth)
      (expression extended core depth)
  | 0 => fun _ _ _ _ => .refused
  | depth + 1 => chain_matches h (hcore _ _ (expression_matches hcore depth))

theorem program_matches {core : Parser Expr → Parser Expr}
    (hcore : SelfMatching (OutsideTier tier) core) (depth : Nat) :
    Matches (OutsideTier tier) id (program table core depth) (program extended core depth) :=
  (expression_matches h hcore depth).bind fun e => Matches.endOfInput.bind fun _ => .pure e

end Tables

end Parser

open Parser

/-- Where no token is an operator of the inserted tier, a table reads the same tree with it as
without it, or none in both cases. -/
theorem parseTokens_insert_tier (before after : List Tier) (tier : Tier) {lexemes : List Lexeme}
    (hfree : ∀ l ∈ lexemes, ∀ op ∈ tier.ops, l.token ≠ .operator op) (source : String) (e : Expr) :
    parseTokens ⟨before ++ after⟩ term lexemes source = .ok e ↔
      parseTokens ⟨before ++ tier :: after⟩ term lexemes source = .ok e := by
  have h := program_matches (OperatorTable.extends_insert before after tier) term_selfMatching
    (lexemes.length + 1) ⟨lexemes, 0⟩ ⟨lexemes.length, []⟩ ⟨lexemes.length, []⟩ hfree
  unfold parseTokens
  obtain ⟨f, f', hr, hr'⟩ | ⟨e', d, f, f', hr, hr', -⟩ := h.cases
  · rw [hr, hr']
    exact ⟨nofun, nofun⟩
  · rw [hr, hr']
    rfl

theorem tighterTier_reads_difference : ∃ e,
    parseTokens ⟨[] ++ [⟨.infixed .left, [.sub]⟩]⟩ term [⟨.number "3", ⟨0, 1⟩⟩,
      ⟨.operator .sub, ⟨1, 2⟩⟩, ⟨.number "2", ⟨2, 3⟩⟩] "3-2" = .ok e ∧
    parseTokens ⟨[] ++ ⟨.infixed .right, [.pow, .mul]⟩ :: [⟨.infixed .left, [.sub]⟩]⟩ term
      [⟨.number "3", ⟨0, 1⟩⟩, ⟨.operator .sub, ⟨1, 2⟩⟩, ⟨.number "2", ⟨2, 3⟩⟩] "3-2" = .ok e := by
  have hparses : (parseTokens ⟨[] ++ [⟨.infixed .left, [.sub]⟩]⟩ term [⟨.number "3", ⟨0, 1⟩⟩,
      ⟨.operator .sub, ⟨1, 2⟩⟩, ⟨.number "2", ⟨2, 3⟩⟩] "3-2").isOk = true := by decide +kernel
  obtain ⟨e, he⟩ := exists_of_isOk hparses
  exact ⟨e, he, (parseTokens_insert_tier _ _ _ (by decide) _ e).1 he⟩

end Heightfield
