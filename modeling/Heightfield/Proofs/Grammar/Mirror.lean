import Heightfield.Proofs.Expr.Alike
import Heightfield.Proofs.Grammar.Written

/-! Two runs of the parser over tokens that it does not tell apart. Between two such token lists
only spans and names differ, and the parser decides nothing by either: both runs refuse at the same
place, with the same expectations, or both answer, with trees of one shape. -/

namespace Heightfield

/-- The same token, or two names. -/
def Token.Alike (t t' : Token) : Prop := t = t' ∨ ∃ name name', t = .ident name ∧ t' = .ident name'

/-- Two names where tokens stand that correspond. -/
def Named (S : Lexeme → Lexeme → Prop) (n n' : Ident) : Prop :=
  ∃ l l', S l l' ∧ l.ident? = some n ∧ l'.ident? = some n'

namespace Parser

variable {S : Lexeme → Lexeme → Prop} {α α' β β' : Type} {T : α → α' → Prop} {U : β → β' → Prop}
  {p q : Parser α} {p' q' : Parser α'}

/-- Both runs refuse, with the same record, or they read as many tokens and `T` holds of the
answers. -/
inductive Mirrored (S : Lexeme → Lexeme → Prop) (T : α → α' → Prop) :
    Option (α × Cursor) × Furthest → Option (α' × Cursor) × Furthest → Prop
  | refused {f} : Mirrored S T (none, f) (none, f)
  | read {a a' d d' f} (answers : T a a') (behind : List.Forall₂ S d.rest d'.rest) :
      Mirrored S T (some (a, d), f) (some (a', d'), f)

theorem Mirrored.cases {x : Option (α × Cursor) × Furthest} {x' : Option (α' × Cursor) × Furthest}
    (h : Mirrored S T x x') :
    (∃ f, x = (none, f) ∧ x' = (none, f)) ∨ ∃ a a' d d' f, x = (some (a, d), f) ∧
      x' = (some (a', d'), f) ∧ T a a' ∧ List.Forall₂ S d.rest d'.rest := by
  cases h with
  | refused => exact .inl ⟨_, rfl, rfl⟩
  | read ha hd => exact .inr ⟨_, _, _, _, _, rfl, rfl, ha, hd⟩

/-- Before tokens that correspond, and after the same refusals, `p` and `p'` run alike. -/
def Mirrors (S : Lexeme → Lexeme → Prop) (T : α → α' → Prop) (p : Parser α) (p' : Parser α') :
    Prop :=
  ∀ c c' f, List.Forall₂ S c.rest c'.rest → Mirrored S T (p c f) (p' c' f)

namespace Mirrors

theorem imp {T' : α → α' → Prop} (hp : Mirrors S T p p') (h : ∀ a a', T a a' → T' a a') :
    Mirrors S T' p p' := by
  intro c c' f hc
  obtain ⟨f₁, hr, hr'⟩ | ⟨a, a', d, d', f₁, hr, hr', ha, hd⟩ := (hp c c' f hc).cases
  · rw [hr, hr']
    exact .refused
  · rw [hr, hr']
    exact .read (h a a' ha) hd

theorem pure {a : α} {a' : α'} (h : T a a') : Mirrors S T (pure a) (Pure.pure a') :=
  fun _ _ _ hc => .read h hc

theorem bind (hp : Mirrors S T p p') {next : α → Parser β} {next' : α' → Parser β'}
    (hnext : ∀ a a', T a a' → Mirrors S U (next a) (next' a')) :
    Mirrors S U (p >>= next) (p' >>= next') := by
  intro c c' f hc
  rw [bind_eq, bind_eq]
  obtain ⟨f₁, hr, hr'⟩ | ⟨a, a', d, d', f₁, hr, hr', ha, hd⟩ := (hp c c' f hc).cases
  · rw [hr, hr']
    exact .refused
  · rw [hr, hr']
    exact hnext a a' ha d d' f₁ hd

theorem orElse (hp : Mirrors S T p p') (hq : Mirrors S T q q') :
    Mirrors S T (p <|> q) (p' <|> q') := by
  intro c c' f hc
  rw [orElse_eq, orElse_eq]
  obtain ⟨f₁, hr, hr'⟩ | ⟨a, a', d, d', f₁, hr, hr', ha, hd⟩ := (hp c c' f hc).cases
  · rw [hr, hr']
    exact hq c c' f₁ hc
  · rw [hr, hr']
    exact .read ha hd

theorem many (hp : Mirrors S T p p') : Mirrors S (List.Forall₂ T) (many p) (Parser.many p') := by
  intro c c' f hc
  induction hlength : c.rest.length using Nat.strongRecOn generalizing c c' f with
  | ind n ih =>
    subst hlength
    rw [many_eq p, many_eq p']
    obtain ⟨f₁, hr, hr'⟩ | ⟨a, a', d, d', f₁, hr, hr', ha, hd⟩ := (hp c c' f hc).cases
    · rw [hr, hr']
      exact .read .nil hc
    rw [hr, hr']
    simp only [← hd.length_eq, ← hc.length_eq]
    by_cases hlt : d.rest.length < c.rest.length
    · simp only [if_pos hlt]
      obtain ⟨f₂, hm, hm'⟩ | ⟨as, as', e, e', f₂, hm, hm', has, he⟩ :=
        (ih _ hlt d d' f₁ hd rfl).cases
      · rw [hm, hm']
        exact .refused
      · rw [hm, hm']
        exact .read (.cons ha has) he
    · simp only [if_neg hlt]
      exact .read (.cons ha .nil) hd

theorem lastStop : Mirrors S (fun _ _ => True) lastStop Parser.lastStop :=
  fun _ _ _ hc => .read trivial hc

theorem endOfInput : Mirrors S (fun _ _ => True) endOfInput Parser.endOfInput := by
  rintro ⟨rest, stop⟩ ⟨rest', stop'⟩ f hc
  cases hc with
  | nil => exact .read trivial .nil
  | cons hl hrest =>
    have hlength := hrest.length_eq
    simp only [Parser.endOfInput, List.isEmpty_cons, List.length_cons, hlength]
    exact .refused

section Tokens

variable (hS : ∀ l l', S l l' → l.token.Alike l'.token)

include hS

/-- A parser of one token that takes either of two names runs alike. -/
theorem token {accept : Token → Option α}
    (h : ∀ name name', (accept (.ident name)).isSome = (accept (.ident name')).isSome)
    (expected expectedAtEnd : List Expected) :
    Mirrors S (fun r r' => ∃ l l', S l l' ∧ accept l.token = some r.1 ∧ r.2 = l.span ∧
        accept l'.token = some r'.1 ∧ r'.2 = l'.span)
      (token accept expected expectedAtEnd) (Parser.token accept expected expectedAtEnd) := by
  rintro ⟨rest, stop⟩ ⟨rest', stop'⟩ f hc
  cases hc with
  | nil => exact .refused
  | @cons l l' rest rest' hl hrest =>
    have hsome : (accept l.token).isSome = (accept l'.token).isSome := by
      obtain heq | ⟨name, name', hname, hname'⟩ := hS l l' hl
      · rw [heq]
      · rw [hname, hname', h name name']
    have hlength := hrest.length_eq
    simp only [Parser.token, List.length_cons, hlength]
    cases ha : accept l.token with
    | none =>
      rw [ha, Option.isSome_none, eq_comm, Option.isSome_eq_false_iff, Option.isNone_iff_eq_none]
        at hsome
      rw [hsome]
      exact .refused
    | some a =>
      rw [ha, Option.isSome_some, eq_comm, Option.isSome_iff_exists] at hsome
      obtain ⟨a', ha'⟩ := hsome
      rw [ha']
      exact .read ⟨l, l', hl, ha, rfl, ha', rfl⟩ hrest

theorem fixed {t : Token} (ht : ∀ name, t ≠ .ident name) :
    Mirrors S (fun _ _ => True) (fixed t) (Parser.fixed t) := by
  refine bind (token hS (fun name name' => ?_) _ _) fun _ _ _ => pure trivial
  rw [if_neg (ht name).symm, if_neg (ht name').symm]

theorem ident : Mirrors S (Named S) ident Parser.ident := by
  refine bind (token hS (fun _ _ => rfl) _ _) ?_
  rintro ⟨name, _⟩ ⟨name', _⟩ ⟨l, l', hl, hname, rfl, hname', rfl⟩
  refine pure ⟨l, l', hl, ?_, ?_⟩
  · cases ht : l.token with
    | ident m =>
      rw [ht] at hname
      cases hname
      rw [Lexeme.ident?, ht]
    | _ => simp [ht] at hname
  · cases ht : l'.token with
    | ident m =>
      rw [ht] at hname'
      cases hname'
      rw [Lexeme.ident?, ht]
    | _ => simp [ht] at hname'

theorem number {R : Ident → Ident → Prop} : Mirrors S (Alike R) number Parser.number := by
  refine bind (token hS (fun _ _ => rfl) _ _) ?_
  rintro ⟨digits, _⟩ ⟨digits', _⟩ ⟨l, l', hl, hdigits, -, hdigits', -⟩
  obtain heq | ⟨name, name', hname, -⟩ := hS l l' hl
  · rw [← heq] at hdigits'
    cases hdigits.symm.trans hdigits'
    exact pure .number
  · simp [hname] at hdigits

theorem operator (look : Op → Option OperatorDecl) (decls : List OperatorDecl) :
    Mirrors S (fun r r' => r.1 = r'.1) (operator look decls) (Parser.operator look decls) := by
  refine (token hS (fun _ _ => rfl) _ _).imp ?_
  rintro r r' ⟨l, l', hl, hdecl, -, hdecl', -⟩
  obtain heq | ⟨name, name', hname, -⟩ := hS l l' hl
  · rw [← heq] at hdecl'
    exact Option.some.inj (hdecl.symm.trans hdecl')
  · simp [hname] at hdecl

theorem parenthesized (hp : Mirrors S T p p') :
    Mirrors S T (parenthesized p) (Parser.parenthesized p') :=
  (fixed hS (by nofun)).bind fun _ _ _ => hp.bind fun _ _ ha =>
    (fixed hS (by nofun)).bind fun _ _ _ => pure ha

theorem separated (hp : Mirrors S T p p') : Mirrors S (List.Forall₂ T)
    (separated p (Parser.fixed .comma)) (Parser.separated p' (Parser.fixed .comma)) := by
  refine orElse (hp.bind fun _ _ ha => ?_) (pure .nil)
  refine (((fixed hS (by nofun)).bind fun _ _ _ => hp).many).bind fun _ _ has => ?_
  exact pure (.cons ha has)

section Forms

variable {core core' expr expr' : Parser Expr}

theorem operand (table : OperatorTable) (hcore : Mirrors S (Alike (Named S)) core core') :
    Mirrors S (Alike (Named S)) (operand table core) (Parser.operand table core') := by
  refine (operator hS _ _).many.bind fun ops ops' hops => hcore.bind fun e e' he => pure ?_
  induction hops with
  | nil => exact he
  | @cons r r' _ _ hr _ ih =>
    rw [List.foldr_cons, List.foldr_cons, underPrefix, underPrefix, hr]
    exact .unary ih

theorem chain (table : OperatorTable) (hcore : Mirrors S (Alike (Named S)) core core') :
    Mirrors S (Alike (Named S)) (chain table core) (Parser.chain table core') := by
  have hoperand := operand hS table hcore
  have hoperation : Mirrors S (fun r r' => r.1 = r'.1 ∧ Alike (Named S) r.2 r'.2)
      (operation table core) (operation table core') :=
    (operator hS _ _).bind fun _ _ hdecl => hoperand.bind fun _ _ he => pure ⟨hdecl, he⟩
  refine hoperand.bind fun _ _ hfirst => hoperation.many.bind fun _ _ hrest => ?_
  exact pure (hfirst.climb hrest)

variable (hexpr : Mirrors S (Alike (Named S)) expr expr')

include hexpr

theorem binding : Mirrors S (Alike (Named S)) (binding expr) (Parser.binding expr') :=
  (fixed hS (by nofun)).bind fun _ _ _ => (ident hS).bind fun _ _ hname =>
    (fixed hS (by nofun)).bind fun _ _ _ => hexpr.bind fun _ _ hbound =>
    (fixed hS (by nofun)).bind fun _ _ _ => hexpr.bind fun _ _ hbody =>
    lastStop.bind fun _ _ _ => pure (.binding hname hbound hbody)

theorem function : Mirrors S (Alike (Named S)) (function expr) (Parser.function expr') :=
  (fixed hS (by nofun)).bind fun _ _ _ => (ident hS).bind fun _ _ hname =>
    (parenthesized hS (separated hS (ident hS))).bind fun _ _ hparams =>
    (fixed hS (by nofun)).bind fun _ _ _ => hexpr.bind fun _ _ hbody =>
    (fixed hS (by nofun)).bind fun _ _ _ => hexpr.bind fun _ _ hcontext =>
    lastStop.bind fun _ _ _ => pure (.function hname hparams hbody hcontext)

theorem conditional : Mirrors S (Alike (Named S)) (conditional expr) (Parser.conditional expr') :=
  (fixed hS (by nofun)).bind fun _ _ _ => hexpr.bind fun _ _ hcondition =>
    (fixed hS (by nofun)).bind fun _ _ _ => hexpr.bind fun _ _ hpositive =>
    (fixed hS (by nofun)).bind fun _ _ _ => hexpr.bind fun _ _ hnegative =>
    lastStop.bind fun _ _ _ => pure (.conditional hcondition hpositive hnegative)

theorem referenceOrCall :
    Mirrors S (Alike (Named S)) (referenceOrCall expr) (Parser.referenceOrCall expr') := by
  refine (ident hS).bind fun _ _ hname => orElse ?_ (pure (.reference hname))
  refine (parenthesized hS (separated hS hexpr)).bind fun _ _ hargs => ?_
  exact lastStop.bind fun _ _ _ => pure (.call hname (alikeAll_iff.2 hargs))

theorem anyCore : Mirrors S (Alike (Named S)) (anyCore expr) (Parser.anyCore expr') :=
  ((binding hS hexpr).orElse ((function hS hexpr).orElse (conditional hS hexpr))).orElse
    ((number hS).orElse ((referenceOrCall hS hexpr).orElse (parenthesized hS hexpr)))

omit hexpr in
theorem expression (table : OperatorTable) : ∀ depth, Mirrors S (Alike (Named S))
    (expression table Parser.anyCore depth) (Parser.expression table Parser.anyCore depth)
  | 0 => fun _ _ _ _ => .refused
  | depth + 1 => chain hS table (anyCore hS (expression table depth))

omit hexpr in
theorem program (table : OperatorTable) (depth : Nat) : Mirrors S (Alike (Named S))
    (program table Parser.anyCore depth) (Parser.program table Parser.anyCore depth) :=
  (expression hS table depth).bind fun _ _ he => endOfInput.bind fun _ _ _ => pure he

end Forms

end Tokens

end Mirrors

end Parser

theorem forall₂_token {lexemes lexemes' : List Lexeme}
    (h : lexemes.map (·.token) = lexemes'.map (·.token)) :
    List.Forall₂ (fun l l' : Lexeme => l.token = l'.token) lexemes lexemes' := by
  have hmaps := List.forall₂_eq_eq_eq ▸ h
  rwa [List.forall₂_map_left_iff, List.forall₂_map_right_iff] at hmaps

open Heightfield.Parser

/-- From tokens that the parser does not tell apart it makes trees of one shape, or errors from one
record. -/
theorem parseTokens_mirrored {S : Lexeme → Lexeme → Prop}
    (hS : ∀ l l', S l l' → l.token.Alike l'.token) {lexemes lexemes' : List Lexeme}
    (h : List.Forall₂ S lexemes lexemes') (source source' : String) :
    (∃ e e', parseTokens .standard anyCore lexemes source = .ok e ∧
        parseTokens .standard anyCore lexemes' source' = .ok e' ∧ Alike (Named S) e e') ∨
      ∃ f, parseTokens .standard anyCore lexemes source = .error (.ofFurthest f lexemes source) ∧
        parseTokens .standard anyCore lexemes' source' =
          .error (.ofFurthest f lexemes' source') := by
  have hruns := Mirrors.program hS .standard (lexemes.length + 1) ⟨lexemes, 0⟩ ⟨lexemes', 0⟩
    ⟨lexemes.length, []⟩ h
  unfold parseTokens
  rw [← h.length_eq]
  generalize program .standard anyCore (lexemes.length + 1) ⟨lexemes, 0⟩ ⟨lexemes.length, []⟩ = r,
    program .standard anyCore (lexemes.length + 1) ⟨lexemes', 0⟩ ⟨lexemes.length, []⟩ = r'
    at hruns ⊢
  cases hruns with
  | refused => exact .inr ⟨_, rfl, rfl⟩
  | read he _ => exact .inl ⟨_, _, rfl, rfl, he⟩

end Heightfield
