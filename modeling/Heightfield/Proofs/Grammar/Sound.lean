import Heightfield.Proofs.Grammar
import Heightfield.Proofs.Grammar.Reading

/-! Whatever the parser reads is derivable. What it has read where it refuses a token can be gone on
with to something derivable, and so it can with each token that it would have taken there. -/

namespace Heightfield

section

variable {table : OperatorTable} {op : Op} {decl : OperatorDecl}

theorem OperatorTable.op_of_prefixed? (h : table.prefixed? op = some decl) : decl.op = op := by
  have hd := List.find?_some h
  exact of_decide_eq_true hd

theorem OperatorTable.op_of_infixed? (h : table.infixed? op = some decl) : decl.op = op := by
  have hd := List.find?_some h
  exact of_decide_eq_true hd

theorem OperatorTable.prefixed?_of_mem (h : decl ∈ table.prefixedDecls) :
    (table.prefixed? decl.op).isSome :=
  List.find?_isSome.2 ⟨decl, h, decide_eq_true rfl⟩

theorem OperatorTable.infixed?_of_mem (h : decl ∈ table.infixedDecls) :
    (table.infixed? decl.op).isSome :=
  List.find?_isSome.2 ⟨decl, h, decide_eq_true rfl⟩

/-- Some operator is declared before an operand, and some between operands. -/
structure OperatorTable.Mixed (table : OperatorTable) : Prop where
  exists_prefixed : ∃ op decl, table.prefixed? op = some decl
  exists_infixed : ∃ op decl, table.infixed? op = some decl

theorem OperatorTable.Mixed.standard : OperatorTable.standard.Mixed :=
  ⟨⟨.sub, _, rfl⟩, ⟨.add, _, rfl⟩⟩

end

namespace Token

/-- The keywords and the signs that are no operators. -/
def isPunctuation : Token → Bool
  | .keyword _ | .equals | .openParen | .closeParen | .comma => true
  | .operator _ | .ident _ | .number _ => false

def isOperator : Token → Bool
  | .operator _ => true
  | _ => false

theorem ofToken_of_isPunctuation {t : Token} (h : t.isPunctuation = true) :
    Expected.ofToken t = .fixed t := by
  cases t <;> first | rfl | cases h

end Token

namespace Parser

open Grammar

variable {α β : Type} {p p' : Parser α} {q : α → Parser β} {R S : List Token → Prop}

/-- Some tokens with `R` begin as `ts` does up to the last `left` tokens of it, and go on there with
`next`. -/
def Viable (R : List Token → Prop) (ts : List Token) (left : Nat) (next : List Token) : Prop :=
  ∃ us vs ws, ts = us ++ vs ∧ vs.length = left ∧ R (us ++ (next ++ ws))

/-- What the record `f'` says beyond `f` agrees with `V`: its place, and the tokens that were
acceptable there. At the end of the input no operator is among them. -/
structure Refused (V : Nat → List Token → Prop) (f f' : Furthest) : Prop where
  place : f'.left = f.left ∨ V f'.left []
  next : ∀ x ∈ f'.expected, (f'.left = f.left ∧ x ∈ f.expected) ∨
    ∃ t, Expected.ofToken t = x ∧ V f'.left [t] ∧ (f'.left = 0 → t.isOperator = false)

/-- There are tokens with `R`. Where `p` succeeds, it has read such, and where it refuses, it has
read what such tokens begin with. -/
structure Reads (p : Parser α) (R : List Token → Prop) : Prop where
  word : ∃ ts, R ts
  read : ∀ {c f a c' f'}, p c f = (some (a, c'), f') → ∃ ts, c.tokens = ts ++ c'.tokens ∧ R ts
  refused : ∀ c f, Refused (Viable R c.tokens) f (p c f).2

/-- Tokens with `R` and after them tokens with `S`. -/
def Then (R S : List Token → Prop) (ts : List Token) : Prop :=
  ∃ us vs, ts = us ++ vs ∧ R us ∧ S vs

inductive Many (R : List Token → Prop) : List Token → Prop
  | nil : Many R []
  | cons {us vs} (first : R us) (rest : Many R vs) : Many R (us ++ vs)

theorem Viable.imp {ts next : List Token} {left : Nat} (h : Viable R ts left next)
    (hRS : ∀ ts, R ts → S ts) : Viable S ts left next := by
  obtain ⟨us, vs, ws, hts, hvs, hR⟩ := h
  exact ⟨us, vs, ws, hts, hvs, hRS _ hR⟩

theorem Viable.before {ts next : List Token} {left : Nat} (h : Viable R ts left next)
    (hS : ∃ ts, S ts) : Viable (Then R S) ts left next := by
  obtain ⟨us, vs, ws, hts, hvs, hR⟩ := h
  obtain ⟨xs, hS⟩ := hS
  exact ⟨us, vs, ws ++ xs, hts, hvs, us ++ (next ++ ws), xs, by simp, hR, hS⟩

theorem Viable.behind {ts us next : List Token} {left : Nat} (hR : R us)
    (h : Viable S ts left next) : Viable (Then R S) (us ++ ts) left next := by
  obtain ⟨vs, xs, ws, rfl, hxs, hS⟩ := h
  exact ⟨us ++ vs, xs, ws, (List.append_assoc _ _ _).symm, hxs, us, vs ++ (next ++ ws), by simp, hR,
    hS⟩

namespace Refused

variable {V W : Nat → List Token → Prop} {f f' f'' : Furthest}

theorem refl (V : Nat → List Token → Prop) (f : Furthest) : Refused V f f :=
  ⟨.inl rfl, fun _ hx => .inl ⟨rfl, hx⟩⟩

theorem trans (h : Refused V f f') (h' : Refused V f' f'') : Refused V f f'' where
  place := by
    rcases h'.place with hp | hp
    · rw [hp]
      exact h.place
    · exact .inr hp
  next x hx := by
    rcases h'.next x hx with ⟨hp, hx⟩ | hv
    · rw [hp]
      exact h.next x hx
    · exact .inr hv

theorem imp (h : Refused V f f') (hVW : ∀ left next, V left next → W left next) :
    Refused W f f' where
  place := h.place.imp_right (hVW _ _)
  next x hx := (h.next x hx).imp_right fun ⟨t, ht, hv, hend⟩ => ⟨t, ht, hVW _ _ hv, hend⟩

theorem of_refuse {left : Nat} {expected : List Expected} (hplace : V left [])
    (hnext : ∀ x ∈ expected, ∃ t, Expected.ofToken t = x ∧ V left [t] ∧
      (left = 0 → t.isOperator = false)) :
    Refused V f (f.refuse left expected) := by
  unfold Furthest.refuse
  split
  · exact ⟨.inr hplace, fun x hx => .inr (hnext x hx)⟩
  · split
    · next heq =>
      refine ⟨.inr hplace, fun x hx => ?_⟩
      rcases List.mem_append.1 hx with hx | hx
      · exact .inl ⟨heq, hx⟩
      · exact .inr (hnext x hx)
    · exact refl V f

end Refused

theorem Reads.imp (hp : Reads p R) (h : ∀ ts, R ts → S ts) : Reads p S where
  word := hp.word.imp h
  read hr := by
    obtain ⟨ts, hts, hR⟩ := hp.read hr
    exact ⟨ts, hts, h ts hR⟩
  refused c f := (hp.refused c f).imp fun _ _ hv => hv.imp h

theorem Reads.pure (a : α) : Reads (pure a) (· = []) where
  word := ⟨[], rfl⟩
  read hr := by
    cases hr
    exact ⟨[], rfl, rfl⟩
  refused _ f := .refl _ f

theorem bind_ok {c c' : Cursor} {f f' : Furthest} {b : β}
    (h : (p >>= q) c f = (some (b, c'), f')) :
    ∃ a c₁ f₁, p c f = (some (a, c₁), f₁) ∧ q a c₁ f₁ = (some (b, c'), f') := by
  rw [bind_eq] at h
  cases hr : p c f with
  | mk answer f₁ =>
    rw [hr] at h
    cases answer with
    | none => cases h
    | some r => exact ⟨r.1, r.2, f₁, rfl, h⟩

theorem Reads.bind [Inhabited α] (hp : Reads p R) (hq : ∀ a, Reads (q a) S) :
    Reads (p >>= q) (Then R S) where
  word := by
    obtain ⟨us, hR⟩ := hp.word
    obtain ⟨vs, hS⟩ := (hq default).word
    exact ⟨us ++ vs, us, vs, rfl, hR, hS⟩
  read hr := by
    obtain ⟨a, c₁, f₁, h, h'⟩ := bind_ok hr
    obtain ⟨us, hus, hR⟩ := hp.read h
    obtain ⟨vs, hvs, hS⟩ := (hq a).read h'
    exact ⟨us ++ vs, by rw [hus, hvs, List.append_assoc], us, vs, rfl, hR, hS⟩
  refused c f := by
    have hfirst : Refused (Viable (Then R S) c.tokens) f (p c f).2 :=
      (hp.refused c f).imp fun _ _ hv => hv.before (hq default).word
    rw [bind_eq]
    cases hr : p c f with
    | mk answer f₁ =>
      rw [hr] at hfirst
      cases answer with
      | none => exact hfirst
      | some r =>
        obtain ⟨us, hus, hR⟩ := hp.read hr
        refine hfirst.trans (((hq r.1).refused r.2 f₁).imp fun _ _ hv => ?_)
        rw [hus]
        exact hv.behind hR

theorem Reads.orElse (hp : Reads p R) (hp' : Reads p' R) : Reads (p <|> p') R where
  word := hp.word
  read := by
    intro c f a c' f' hr
    rw [orElse_eq] at hr
    cases h : p c f with
    | mk answer f₁ =>
      rw [h] at hr
      cases answer with
      | none => exact hp'.read hr
      | some r =>
        cases hr
        exact hp.read h
  refused c f := by
    have hfirst := hp.refused c f
    rw [orElse_eq]
    cases h : p c f with
    | mk answer f₁ =>
      rw [h] at hfirst
      cases answer with
      | none => exact hfirst.trans (hp'.refused c f₁)
      | some r => exact hfirst

theorem Many.of_then {ts : List Token} : Then R (Many R) ts → Many R ts
  | ⟨_, _, hts, hR, hmany⟩ => hts ▸ .cons hR hmany

theorem Reads.many (hp : Reads p R) : Reads (many p) (Many R) where
  word := ⟨[], .nil⟩
  read := by
    intro c f
    fun_induction Parser.many p c f with
    | case1 c f f' h =>
      intro as c' f'' hr
      cases hr
      exact ⟨[], rfl, .nil⟩
    | case2 c f a c₁ f₁ h hlt as c₂ f₂ hmany ih =>
      intro _ _ _ hr
      cases hr
      obtain ⟨us, hus, hR⟩ := hp.read h
      obtain ⟨vs, hvs, hvs'⟩ := ih hmany
      exact ⟨us ++ vs, by rw [hus, hvs, List.append_assoc], .cons hR hvs'⟩
    | case3 c f a c₁ f₁ h hlt f₂ hmany ih =>
      intro _ _ _ hr
      cases hr
    | case4 c f a c₁ f₁ h hlt =>
      intro _ _ _ hr
      cases hr
      obtain ⟨us, hus, hR⟩ := hp.read h
      exact ⟨us ++ [], by rw [hus, List.append_nil], .cons hR .nil⟩
  refused c f := by
    have hfirst : ∀ c f, Refused (Viable (Many R) c.tokens) f (p c f).2 := fun c f =>
      (hp.refused c f).imp fun _ _ hv => (hv.before ⟨[], .nil⟩).imp fun _ => Many.of_then
    fun_induction Parser.many p c f with
    | case1 c f f' h => simpa only [h] using hfirst c f
    | case2 c f a c₁ f₁ h hlt as c₂ f₂ hmany ih | case3 c f a c₁ f₁ h hlt f₂ hmany ih =>
      obtain ⟨us, hus, hR⟩ := hp.read h
      have hstep := hfirst c f
      rw [h] at hstep
      rw [hmany] at ih
      refine hstep.trans (ih.imp fun _ _ hv => ?_)
      rw [hus]
      exact (hv.behind hR).imp fun _ => Many.of_then
    | case4 c f a c₁ f₁ h hlt => simpa only [h] using hfirst c f

section Tokens

variable {accept : Token → Option α} {expected expectedAtEnd : List Expected}

/-- Each token that is said to be acceptable is one that the parser takes, and it takes some. -/
theorem token_reads (hword : ∃ t a, accept t = some a)
    (hexpected : ∀ x ∈ expected, ∃ t a, accept t = some a ∧ Expected.ofToken t = x)
    (hatEnd : expectedAtEnd ⊆ expected)
    (hsilent : ∀ op, Expected.fixed (.operator op) ∉ expectedAtEnd) :
    Reads (token accept expected expectedAtEnd)
      fun ts => ∃ t a, accept t = some a ∧ ts = [t] where
  word := by
    obtain ⟨t, a, h⟩ := hword
    exact ⟨[t], t, a, h, rfl⟩
  read := by
    rintro ⟨rest, stop⟩ f a c' f' hr
    cases rest with
    | nil => cases hr
    | cons l ls =>
      rw [token] at hr
      cases h : accept l.token with
      | none => simp [h] at hr
      | some b =>
        simp only [h] at hr
        cases hr
        exact ⟨[l.token], rfl, l.token, b, h, rfl⟩
  refused := by
    have hrefuse : ∀ (c : Cursor) (f : Furthest) (xs : List Expected), xs ⊆ expected →
        (c.rest.length = 0 → ∀ op, Expected.fixed (.operator op) ∉ xs) →
        Refused (Viable (fun ts => ∃ t a, accept t = some a ∧ ts = [t]) c.tokens) f
          (f.refuse c.rest.length xs) := by
      intro c f xs hxs hend
      obtain ⟨t, a, h⟩ := hword
      refine .of_refuse ⟨[], c.tokens, [t], rfl, List.length_map _, t, a, h, rfl⟩ fun x hx => ?_
      obtain ⟨t', a', h', rfl⟩ := hexpected x (hxs hx)
      refine ⟨t', rfl, ⟨[], c.tokens, [], rfl, List.length_map _, t', a', h', rfl⟩, fun hleft => ?_⟩
      cases t' with
      | operator op => exact absurd hx (hend hleft op)
      | _ => rfl
    rintro ⟨rest, stop⟩ f
    cases rest with
    | nil => exact hrefuse ⟨[], stop⟩ f expectedAtEnd hatEnd fun _ => hsilent
    | cons l ls =>
      rw [token]
      cases h : accept l.token with
      | none =>
        have hmore : (l :: ls).length ≠ 0 := Nat.succ_ne_zero _
        simpa only [h] using hrefuse ⟨l :: ls, stop⟩ f expected (fun _ => id) (absurd · hmore)
      | some b => simpa only [h] using .refl _ f

theorem fixed_reads (t : Token) (ht : t.isPunctuation = true) :
    Reads (fixed t) (· = [t]) := by
  refine Reads.imp (Reads.bind (token_reads ⟨t, (), if_pos rfl⟩ ?_ (fun _ => id) ?_)
    fun _ => Reads.pure _) ?_
  · rintro _ (_ | ⟨_, ⟨⟩⟩)
    exact ⟨t, (), if_pos rfl, t.ofToken_of_isPunctuation ht⟩
  · rintro op hop
    cases List.mem_singleton.1 hop
    cases ht
  · rintro _ ⟨_, _, rfl, ⟨t', a, h, rfl⟩, rfl⟩
    simp only [Option.ite_none_right_eq_some] at h
    rw [h.1]
    rfl

theorem ident_reads : Reads ident fun ts => ∃ name, ts = [.ident name] := by
  refine Reads.imp (Reads.bind (token_reads ⟨.ident "", "", rfl⟩ ?_ (fun _ => id) (by simp))
    fun _ => Reads.pure _) ?_
  · rintro _ (_ | ⟨_, ⟨⟩⟩)
    exact ⟨.ident "", "", rfl, rfl⟩
  · rintro _ ⟨_, _, rfl, ⟨t, a, h, rfl⟩, rfl⟩
    cases t with
    | ident name => exact ⟨name, rfl⟩
    | _ => cases h

theorem number_reads : Reads number fun ts => ∃ digits, ts = [.number digits] := by
  refine Reads.imp (Reads.bind (token_reads ⟨.number "", "", rfl⟩ ?_ (fun _ => id) (by simp))
    fun _ => Reads.pure _) ?_
  · rintro _ (_ | ⟨_, ⟨⟩⟩)
    exact ⟨.number "", "", rfl, rfl⟩
  · rintro _ ⟨_, _, rfl, ⟨t, a, h, rfl⟩, rfl⟩
    cases t with
    | number digits => exact ⟨digits, rfl⟩
    | _ => cases h

theorem operator_reads {look : Op → Option OperatorDecl} {decls : List OperatorDecl}
    (hdecls : ∀ d ∈ decls, (look d.op).isSome) (hword : ∃ op decl, look op = some decl) :
    Reads (operator look decls) fun ts => ∃ op decl, look op = some decl ∧ ts = [.operator op] := by
  refine Reads.imp (token_reads ?_ ?_ (List.nil_subset _) fun _ => List.not_mem_nil) ?_
  · obtain ⟨op, decl, h⟩ := hword
    exact ⟨.operator op, decl, h⟩
  · intro x hx
    obtain ⟨d, hd, rfl⟩ := List.mem_map.1 hx
    obtain ⟨decl, h⟩ := Option.isSome_iff_exists.1 (hdecls d hd)
    exact ⟨.operator d.op, decl, h, rfl⟩
  · rintro _ ⟨t, decl, h, rfl⟩
    cases t with
    | operator op => exact ⟨op, decl, h, rfl⟩
    | _ => cases h

theorem lastStop_reads : Reads lastStop (· = []) where
  word := ⟨[], rfl⟩
  read hr := by
    cases hr
    exact ⟨[], rfl, rfl⟩
  refused _ f := .refl _ f

theorem endOfInput_ok {c c' : Cursor} {f f' : Furthest} {a : Unit}
    (h : endOfInput c f = (some (a, c'), f')) : c.tokens = [] := by
  unfold endOfInput at h
  split at h
  · next hempty => rw [Cursor.tokens, List.isEmpty_iff.1 hempty, List.map_nil]
  · cases h

end Tokens

theorem Many.behindCommas {ts : List Token} (h : Many (Then (· = [.comma]) R) ts) :
    ∃ items : List (List Token), ts = behindCommas items ∧ ∀ item ∈ items, R item := by
  induction h with
  | nil => exact ⟨[], rfl, nofun⟩
  | cons first _ ih =>
    obtain ⟨_, item, rfl, rfl, hitem⟩ := first
    obtain ⟨items, rfl, hitems⟩ := ih
    exact ⟨item :: items, rfl, List.forall_mem_cons.2 ⟨hitem, hitems⟩⟩

theorem separated_reads [Inhabited α] (hp : Reads p R) : Reads (separated p (fixed .comma))
    fun ts => ∃ items : List (List Token), ts = commaSeparated items ∧ ∀ item ∈ items, R item := by
  refine Reads.orElse (Reads.imp (hp.bind fun _ => Reads.bind
    ((fixed_reads _ rfl).bind fun _ => hp).many fun _ => Reads.pure _) ?_)
    ((Reads.pure _).imp ?_)
  · rintro _ ⟨first, _, rfl, hfirst, others, _, rfl, hothers, rfl⟩
    obtain ⟨items, rfl, hitems⟩ := hothers.behindCommas
    refine ⟨first :: items, ?_, List.forall_mem_cons.2 ⟨hfirst, hitems⟩⟩
    rw [List.append_nil, commaSeparated]
  · rintro _ rfl
    exact ⟨[], rfl, nofun⟩

theorem parenthesized_reads [Inhabited α] (hp : Reads p R) : Reads (parenthesized p)
    fun ts => ∃ us, ts = .openParen :: (us ++ [.closeParen]) ∧ R us := by
  refine Reads.imp ((fixed_reads _ rfl).bind fun _ => hp.bind fun _ =>
    (fixed_reads _ rfl).bind fun _ => .pure _) ?_
  rintro _ ⟨_, _, rfl, rfl, us, _, rfl, hus, _, _, rfl, rfl, rfl⟩
  exact ⟨us, rfl, hus⟩

theorem exists_map_eq {g : α → β} : ∀ {bs : List β}, (∀ b ∈ bs, ∃ a, g a = b) →
    ∃ as : List α, as.map g = bs
  | [], _ => ⟨[], rfl⟩
  | b :: bs, h => by
    obtain ⟨a, rfl⟩ := h b List.mem_cons_self
    obtain ⟨as, rfl⟩ := exists_map_eq fun b hb => h b (List.mem_cons_of_mem _ hb)
    exact ⟨a :: as, rfl⟩

section Forms

variable {table : OperatorTable} {core expr : Parser Expr}

/-- The tokens of a phrase. -/
def IsPhrase (table : OperatorTable) (ts : List Token) : Prop := ∃ p : Phrase table, p.tokens = ts

def IsOperand (table : OperatorTable) (ts : List Token) : Prop :=
  ∃ o : Operand table, o.tokens = ts

def IsCore (table : OperatorTable) (ts : List Token) : Prop := ∃ c : Core table, c.tokens = ts

section

variable (htable : table.Mixed)

include htable

theorem operand_reads (hcore : Reads core (IsCore table)) :
    Reads (operand table core) (IsOperand table) := by
  have hoperator := operator_reads (fun _ => table.prefixed?_of_mem) htable.exists_prefixed
  refine Reads.imp (hoperator.many.bind fun _ => hcore.bind fun _ => .pure _) ?_
  rintro _ ⟨ops, _, rfl, hops, _, _, rfl, ⟨c, rfl⟩, rfl⟩
  rw [List.append_nil]
  induction hops with
  | nil => exact ⟨.core c, rfl⟩
  | cons first _ ih =>
    obtain ⟨op, decl, h, rfl⟩ := first
    obtain ⟨o, ho⟩ := ih
    obtain rfl := OperatorTable.op_of_prefixed? h
    refine ⟨.prefixed decl h o, ?_⟩
    rw [Operand.tokens, ho]
    rfl

theorem chain_reads (hcore : Reads core (IsCore table)) :
    Reads (chain table core) (IsPhrase table) := by
  have hoperator := operator_reads (fun _ => table.infixed?_of_mem) htable.exists_infixed
  have hoperand := operand_reads htable hcore
  have hoperation : Reads (operation table core) _ :=
    hoperator.bind fun _ => hoperand.bind fun _ => .pure _
  refine Reads.imp (hoperand.bind fun _ => hoperation.many.bind fun _ => .pure _) ?_
  rintro _ ⟨_, _, rfl, ⟨o, rfl⟩, others, _, rfl, hothers, rfl⟩
  rw [List.append_nil]
  induction hothers generalizing o with
  | nil => exact ⟨.last o, (List.append_nil _).symm⟩
  | cons first _ ih =>
    obtain ⟨_, _, rfl, ⟨op, decl, h, rfl⟩, _, _, rfl, ⟨o', rfl⟩, rfl⟩ := first
    obtain ⟨p, hp⟩ := ih o'
    obtain rfl := OperatorTable.op_of_infixed? h
    refine ⟨.more o decl h p, ?_⟩
    rw [Phrase.tokens, hp]
    simp

end

variable (hexpr : Reads expr (IsPhrase table))

include hexpr

theorem binding_reads : Reads (binding expr) (IsCore table) := by
  refine Reads.imp ((fixed_reads _ rfl).bind fun _ => ident_reads.bind fun _ =>
    (fixed_reads _ rfl).bind fun _ => hexpr.bind fun _ => (fixed_reads _ rfl).bind fun _ =>
    hexpr.bind fun _ => lastStop_reads.bind fun _ => .pure _) ?_
  rintro _ ⟨_, _, rfl, rfl, _, _, rfl, ⟨name, rfl⟩, _, _, rfl, rfl, _, _, rfl, ⟨bound, rfl⟩,
    _, _, rfl, rfl, _, _, rfl, ⟨body, rfl⟩, _, _, rfl, rfl, rfl⟩
  exact ⟨.binding name bound body, by simp [Core.tokens]⟩

theorem function_reads : Reads (function expr) (IsCore table) := by
  refine Reads.imp ((fixed_reads _ rfl).bind fun _ => ident_reads.bind fun _ =>
    (parenthesized_reads (separated_reads ident_reads)).bind fun _ => (fixed_reads _ rfl).bind
    fun _ => hexpr.bind fun _ => (fixed_reads _ rfl).bind fun _ => hexpr.bind fun _ =>
    lastStop_reads.bind fun _ => .pure _) ?_
  rintro _ ⟨_, _, rfl, rfl, _, _, rfl, ⟨name, rfl⟩, _, _, rfl, ⟨_, rfl, items, rfl, hitems⟩,
    _, _, rfl, rfl, _, _, rfl, ⟨body, rfl⟩, _, _, rfl, rfl, _, _, rfl, ⟨context, rfl⟩,
    _, _, rfl, rfl, rfl⟩
  obtain ⟨params, rfl⟩ := exists_map_eq fun item hitem =>
    (hitems item hitem).imp fun _ h => h.symm
  exact ⟨.function name params body context, by simp [Core.tokens]⟩

theorem conditional_reads : Reads (conditional expr) (IsCore table) := by
  refine Reads.imp ((fixed_reads _ rfl).bind fun _ => hexpr.bind fun _ => (fixed_reads _ rfl).bind
    fun _ => hexpr.bind fun _ => (fixed_reads _ rfl).bind fun _ => hexpr.bind fun _ =>
    lastStop_reads.bind fun _ => .pure _) ?_
  rintro _ ⟨_, _, rfl, rfl, _, _, rfl, ⟨condition, rfl⟩, _, _, rfl, rfl, _, _, rfl,
    ⟨positive, rfl⟩, _, _, rfl, rfl, _, _, rfl, ⟨negative, rfl⟩, _, _, rfl, rfl, rfl⟩
  exact ⟨.conditional condition positive negative, by simp [Core.tokens]⟩

theorem referenceOrCall_reads : Reads (referenceOrCall expr) (IsCore table) := by
  refine Reads.imp (ident_reads.bind fun _ => Reads.orElse (Reads.imp
    ((parenthesized_reads (separated_reads hexpr)).bind fun _ =>
      lastStop_reads.bind fun _ => .pure _) fun _ => Or.inl)
    ((Reads.pure _).imp fun _ => Or.inr)) ?_
  rintro _ ⟨_, _, rfl, ⟨name, rfl⟩, ⟨_, _, rfl, ⟨_, rfl, items, rfl, hitems⟩, _, _, rfl, rfl, rfl⟩ |
    rfl⟩
  · obtain ⟨args, rfl⟩ := exists_map_eq hitems
    exact ⟨.call name args, by simp [Core.tokens, tokensAll_eq]⟩
  · exact ⟨.reference name, rfl⟩

theorem group_reads : Reads (parenthesized expr) (IsCore table) := by
  refine (parenthesized_reads hexpr).imp ?_
  rintro _ ⟨_, rfl, inner, rfl⟩
  exact ⟨.group inner, rfl⟩

theorem anyCore_reads : Reads (anyCore expr) (IsCore table) := by
  have hnumber : Reads number (IsCore table) := by
    refine number_reads.imp ?_
    rintro _ ⟨digits, rfl⟩
    exact ⟨.number digits, rfl⟩
  have hcompound : Reads (compound expr) (IsCore table) :=
    (binding_reads hexpr).orElse ((function_reads hexpr).orElse (conditional_reads hexpr))
  exact hcompound.orElse (hnumber.orElse ((referenceOrCall_reads hexpr).orElse (group_reads hexpr)))

omit hexpr in
theorem expression_reads (htable : table.Mixed) :
    ∀ depth, Reads (expression table anyCore depth) (IsPhrase table)
  | 0 => ⟨⟨_, .last (.core (.number "")), rfl⟩, nofun, fun _ f => .refl _ f⟩
  | depth + 1 => chain_reads htable (anyCore_reads (expression_reads htable depth))

end Forms

end Parser

end Heightfield
