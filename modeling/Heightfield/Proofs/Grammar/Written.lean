import Heightfield.Proofs.Grammar.Acceptance

/-! Trees with the tokens they are written with. `Written` tells the span of every node and of every
name from the tokens; it leaves open which of several trees with the same tokens the parser picks.
What the parser answers is written with the tokens it reads. -/

namespace Heightfield

/-- The name that a token is, where it stands. -/
def Lexeme.ident? (l : Lexeme) : Option Ident :=
  match l.token with
  | .ident name => some ⟨name, l.span⟩
  | _ => none

/-- One token, which is the name. -/
def IsName (ls : List Lexeme) (n : Ident) : Prop := ∃ l, ls = [l] ∧ l.ident? = some n

/-- The pieces, with a comma between any two of them. -/
inductive Separated : List (List Lexeme) → List Lexeme → Prop
  | nil : Separated [] []
  | one {piece} : Separated [piece] piece
  | more {piece next pieces comma ls} (hcomma : comma.token = .comma)
      (rest : Separated (next :: pieces) ls) :
      Separated (piece :: next :: pieces) (piece ++ comma :: ls)

inductive Written : List Lexeme → Expr → Prop
  | number {l digits} (hl : l.token = .number digits) :
      Written [l] (.number (Decimal.ofChars digits.toList).toFloat l.span)
  | reference {l n} (hl : l.ident? = some n) : Written [l] (.reference n n.span)
  | call {l n opening ls closing} {items : List (List Lexeme × Expr)} (hl : l.ident? = some n)
      (hopening : opening.token = .openParen) (parts : ∀ item ∈ items, Written item.1 item.2)
      (hls : Separated (items.map (·.1)) ls) (hclosing : closing.token = .closeParen) :
      Written (l :: opening :: (ls ++ [closing]))
        (.call n (items.map (·.2)) ⟨n.span.start, closing.span.stop⟩)
  /-- The parentheses of a group leave no trace. -/
  | group {opening ls e closing} (hopening : opening.token = .openParen) (inner : Written ls e)
      (hclosing : closing.token = .closeParen) : Written (opening :: (ls ++ [closing])) e
  | unary {l decl ls e} (hl : l.token = .operator decl.op)
      (declared : OperatorTable.standard.prefixed? decl.op = some decl) (operand : Written ls e) :
      Written (l :: ls) (.unary decl.op .prefixed e (l.span.through e.span))
  | binary {l decl ls left ms right} (first : Written ls left) (hl : l.token = .operator decl.op)
      (declared : OperatorTable.standard.infixed? decl.op = some decl)
      (second : Written ms right) : Written (ls ++ l :: ms) (.combine decl.op left right)
  | binding {opening l n equals ls bound inner ms body last}
      (hopening : opening.token = .keyword .letKw) (hl : l.ident? = some n)
      (hequals : equals.token = .equals) (first : Written ls bound)
      (hinner : inner.token = .keyword .inKw) (second : Written ms body)
      (hlast : ms.getLast? = some last) :
      Written (opening :: l :: equals :: (ls ++ inner :: ms))
        (.binding n bound body ⟨opening.span.start, last.span.stop⟩)
  | function {opening l n left ks right equals ls body inner ms context last}
      {params : List (List Lexeme × Ident)} (hopening : opening.token = .keyword .letKw)
      (hl : l.ident? = some n) (hleft : left.token = .openParen)
      (names : ∀ p ∈ params, IsName p.1 p.2) (hks : Separated (params.map (·.1)) ks)
      (hright : right.token = .closeParen) (hequals : equals.token = .equals)
      (first : Written ls body) (hinner : inner.token = .keyword .inKw)
      (second : Written ms context) (hlast : ms.getLast? = some last) :
      Written (opening :: l :: left :: (ks ++ right :: equals :: (ls ++ inner :: ms)))
        (.function n (params.map (·.2)) body context ⟨opening.span.start, last.span.stop⟩)
  | conditional {opening ls condition yes ms positive no ns negative last}
      (hopening : opening.token = .keyword .ifKw) (first : Written ls condition)
      (hyes : yes.token = .keyword .thenKw) (second : Written ms positive)
      (hno : no.token = .keyword .elseKw) (third : Written ns negative)
      (hlast : ns.getLast? = some last) :
      Written (opening :: (ls ++ yes :: (ms ++ no :: ns)))
        (.conditional condition positive negative ⟨opening.span.start, last.span.stop⟩)

theorem Written.ne_nil {ls : List Lexeme} {e : Expr} (h : Written ls e) : ls ≠ [] := by
  cases h with
  | binary => exact List.append_ne_nil_of_right_ne_nil _ (List.cons_ne_nil _ _)
  | _ => exact List.cons_ne_nil _ _

/-- Operators, each with an operand behind it. -/
inductive Chained : List Lexeme → Expr.Chain → Prop
  | nil : Chained [] []
  | cons {l decl ls e ms rest} (hl : l.token = .operator decl.op)
      (declared : OperatorTable.standard.infixed? decl.op = some decl) (operand : Written ls e)
      (others : Chained ms rest) : Chained (l :: (ls ++ ms)) ((decl, e) :: rest)

theorem Written.climbFrom {ls ms : List Lexeme} {left : Expr} {rest : Expr.Chain} (least : Nat)
    (h : Written ls left) (hrest : Chained ms rest) : ∃ us vs, ms = us ++ vs ∧
      Written (ls ++ us) (Expr.climbFrom left rest least).val.1 ∧
      Chained vs (Expr.climbFrom left rest least).val.2 := by
  fun_induction Expr.climbFrom left rest least generalizing ls ms with
  | case1 left least => exact ⟨[], ms, rfl, by rwa [List.append_nil], hrest⟩
  | case2 left least decl operand tail hle right after _ hr result _ hr' ih ih' =>
    cases hrest with
    | @cons l _ ks _ _ _ hl declared hoperand others =>
      obtain ⟨us, vs, rfl, hright, hafter⟩ := ih hoperand others
      rw [hr] at hright hafter
      obtain ⟨us', vs', rfl, hresult, hlast⟩ := ih' (.binary h hl declared hright) hafter
      rw [hr'] at hresult hlast
      refine ⟨l :: (ks ++ us) ++ us', vs', ?_, ?_, hlast⟩
      · simp
      · simpa using hresult
  | case3 left least decl operand tail hle => exact ⟨[], ms, rfl, by rwa [List.append_nil], hrest⟩

theorem Written.climb {ls ms : List Lexeme} {first : Expr} {rest : Expr.Chain}
    (h : Written ls first) (hrest : Chained ms rest) : Written (ls ++ ms) (Expr.climb first rest) := by
  obtain ⟨us, vs, rfl, hclimbed, hvs⟩ := h.climbFrom 0 hrest
  rw [Expr.climbFrom_zero_rest] at hvs
  cases hvs
  rwa [List.append_nil]

/-- Where the last of the tokens ends; without tokens, where those before end. -/
def stopAfter (stop : Nat) (ls : List Lexeme) : Nat := (ls.getLast?.map (·.span.stop)).getD stop

theorem stopAfter_append (stop : Nat) (ls ms : List Lexeme) :
    stopAfter stop (ls ++ ms) = stopAfter (stopAfter stop ls) ms := by
  unfold stopAfter
  rw [List.getLast?_append]
  cases ms.getLast? <;> rfl

namespace Parser

variable {α β : Type} {p p' : Parser α} {q : α → Parser β}
  {R R' : Nat → List Lexeme → α → Prop} {S : α → Nat → List Lexeme → β → Prop}

/-- Whatever `p` answers is what `R` allows of the tokens it reads, and of the place where those
before them end. -/
def Yields (p : Parser α) (R : Nat → List Lexeme → α → Prop) : Prop :=
  ∀ ⦃c f a c' f'⦄, p c f = (some (a, c'), f') →
    ∃ ls, c.rest = ls ++ c'.rest ∧ c'.stop = stopAfter c.stop ls ∧ R c.stop ls a

/-- First what `R` allows, then what `S` allows of that and of the tokens behind it. -/
def Next (R : Nat → List Lexeme → α → Prop) (S : α → Nat → List Lexeme → β → Prop) (stop : Nat)
    (ls : List Lexeme) (b : β) : Prop :=
  ∃ us vs a, ls = us ++ vs ∧ R stop us a ∧ S a (stopAfter stop us) vs b

namespace Yields

theorem imp (hp : Yields p R) (h : ∀ stop ls a, R stop ls a → R' stop ls a) : Yields p R' := by
  intro c f a c' f' hr
  obtain ⟨ls, hls, hstop, hR⟩ := hp hr
  exact ⟨ls, hls, hstop, h _ _ _ hR⟩

theorem pure (a : α) : Yields (pure a) fun _ ls b => ls = [] ∧ b = a := by
  intro c f b c' f' hr
  cases hr
  exact ⟨[], rfl, rfl, rfl, rfl⟩

theorem bind (hp : Yields p R) (hq : ∀ a, Yields (q a) (S a)) : Yields (p >>= q) (Next R S) := by
  intro c f b c' f' hr
  obtain ⟨a, c₁, f₁, h, h'⟩ := bind_ok hr
  obtain ⟨us, hus, hstop, hR⟩ := hp h
  obtain ⟨vs, hvs, hstop', hS⟩ := hq a h'
  refine ⟨us ++ vs, ?_, ?_, us, vs, a, rfl, hR, hstop ▸ hS⟩
  · rw [hus, hvs, List.append_assoc]
  · rw [hstop', hstop, stopAfter_append]

theorem orElse (hp : Yields p R) (hp' : Yields p' R) : Yields (p <|> p') R := by
  intro c f a c' f' hr
  rw [orElse_eq] at hr
  cases h : p c f with
  | mk answer f₁ =>
    rw [h] at hr
    cases answer with
    | none => exact hp' hr
    | some r =>
      cases hr
      exact hp h

theorem token (accept : Token → Option α) (expected expectedAtEnd : List Expected) :
    Yields (token accept expected expectedAtEnd) fun _ ls r =>
      ∃ l, ls = [l] ∧ accept l.token = some r.1 ∧ r.2 = l.span := by
  rintro ⟨rest, stop⟩ f a c' f' hr
  cases rest with
  | nil => cases hr
  | cons l ls =>
    rw [Parser.token] at hr
    cases h : accept l.token with
    | none => simp [h] at hr
    | some b =>
      simp only [h] at hr
      cases hr
      exact ⟨[l], rfl, rfl, l, rfl, h, rfl⟩

theorem fixed (t : Token) : Yields (fixed t) fun _ ls span =>
    ∃ l, ls = [l] ∧ l.token = t ∧ span = l.span := by
  refine ((token _ _ _).bind fun _ => pure _).imp ?_
  rintro stop _ _ ⟨_, _, ⟨_, span⟩, rfl, ⟨l, rfl, haccept, rfl⟩, rfl, rfl⟩
  have ht : l.token = t := by simpa using haccept
  exact ⟨l, rfl, ht, rfl⟩

theorem ident : Yields ident fun _ ls n => IsName ls n := by
  refine ((token _ _ _).bind fun _ => pure _).imp ?_
  rintro stop _ _ ⟨_, _, ⟨name, span⟩, rfl, ⟨l, rfl, haccept, rfl⟩, rfl, rfl⟩
  refine ⟨l, rfl, ?_⟩
  unfold Lexeme.ident?
  cases ht : l.token with
  | ident name' =>
    rw [ht] at haccept
    cases haccept
    rfl
  | _ => simp [ht] at haccept

theorem number : Yields number fun _ ls e => Written ls e := by
  refine ((token _ _ _).bind fun _ => pure _).imp ?_
  rintro stop _ _ ⟨_, _, ⟨digits, span⟩, rfl, ⟨l, rfl, haccept, rfl⟩, rfl, rfl⟩
  cases ht : l.token with
  | number digits' =>
    rw [ht] at haccept
    cases haccept
    exact .number ht
  | _ => simp [ht] at haccept

theorem lastStop : Yields lastStop fun stop ls a => ls = [] ∧ a = stop := by
  intro c f a c' f' hr
  cases hr
  exact ⟨[], rfl, rfl, rfl, rfl⟩

/-- Runs of what `p` answers, one behind another. -/
inductive Run (R : Nat → List Lexeme → α → Prop) : Nat → List Lexeme → List α → Prop
  | nil {stop} : Run R stop [] []
  | cons {stop us vs a as} (first : R stop us a) (others : Run R (stopAfter stop us) vs as) :
      Run R stop (us ++ vs) (a :: as)

theorem many (hp : Yields p R) : Yields (many p) (Run R) := by
  intro c f
  fun_induction Parser.many p c f with
  | case1 c f f' h =>
    intro as c' f'' hr
    cases hr
    exact ⟨[], rfl, rfl, .nil⟩
  | case2 c f a c₁ f₁ h hlt as c₂ f₂ hmany ih =>
    intro _ _ _ hr
    cases hr
    obtain ⟨us, hus, hstop, hR⟩ := hp h
    obtain ⟨vs, hvs, hstop', hRun⟩ := ih hmany
    refine ⟨us ++ vs, ?_, ?_, .cons hR (hstop ▸ hRun)⟩
    · rw [hus, hvs, List.append_assoc]
    · rw [hstop', hstop, stopAfter_append]
  | case3 c f a c₁ f₁ h hlt f₂ hmany ih =>
    intro _ _ _ hr
    cases hr
  | case4 c f a c₁ f₁ h hlt =>
    intro _ _ _ hr
    cases hr
    obtain ⟨us, hus, hstop, hR⟩ := hp h
    have hrun := Run.cons hR .nil
    rw [List.append_nil] at hrun
    exact ⟨us, hus, hstop, hrun⟩

section

variable {T : List Lexeme → α → Prop} (hp : Yields p fun _ => T)

include hp

theorem parenthesized : Yields (parenthesized p) fun _ ls a => ∃ opening us closing,
    ls = opening :: (us ++ [closing]) ∧ opening.token = .openParen ∧ T us a ∧
      closing.token = .closeParen := by
  refine ((fixed _).bind fun _ => hp.bind fun _ => (fixed _).bind fun _ => pure _).imp ?_
  rintro _ _ _ ⟨_, _, _, rfl, ⟨opening, rfl, hopening, -⟩, us, _, a, rfl, hus, _, _, _, rfl,
    ⟨closing, rfl, hclosing, -⟩, rfl, rfl⟩
  exact ⟨opening, us, closing, rfl, hopening, hus, hclosing⟩

omit hp in
/-- Pieces with a comma before each, behind another piece. -/
theorem Run.separated {stop : Nat} {ls : List Lexeme} {as : List α}
    (h : Run (Next (fun _ us _ => ∃ comma, us = [comma] ∧ comma.token = .comma)
      fun (_ : Span) _ => T) stop ls as) (piece : List Lexeme) :
    ∃ items : List (List Lexeme × α), as = items.map (·.2) ∧ (∀ item ∈ items, T item.1 item.2) ∧
      Separated (piece :: items.map (·.1)) (piece ++ ls) := by
  induction h generalizing piece with
  | nil => exact ⟨[], rfl, nofun, by simpa using .one⟩
  | @cons _ _ _ a _ first _ ih =>
    obtain ⟨_, vs, _, rfl, ⟨comma, rfl, hcomma⟩, hvs⟩ := first
    obtain ⟨items, rfl, hitems, hls⟩ := ih vs
    refine ⟨(vs, a) :: items, rfl, List.forall_mem_cons.2 ⟨hvs, hitems⟩, ?_⟩
    exact .more hcomma hls

theorem separated : Yields (separated p (Parser.fixed .comma)) fun _ ls as =>
    ∃ items : List (List Lexeme × α), as = items.map (·.2) ∧ (∀ item ∈ items, T item.1 item.2) ∧
      Separated (items.map (·.1)) ls := by
  have hcomma : Yields (Parser.fixed .comma) fun _ us _ =>
      ∃ comma, us = [comma] ∧ comma.token = .comma :=
    (fixed _).imp fun _ _ _ ⟨comma, hus, htoken, _⟩ => ⟨comma, hus, htoken⟩
  refine orElse ((hp.bind fun _ => (hcomma.bind fun _ => hp).many.bind fun _ => pure _).imp ?_)
    ((pure _).imp ?_)
  · rintro _ _ _ ⟨us, _, first, rfl, hfirst, ls, _, others, rfl, hothers, rfl, rfl⟩
    obtain ⟨items, rfl, hitems, hls⟩ := hothers.separated us
    refine ⟨(us, first) :: items, rfl, List.forall_mem_cons.2 ⟨hfirst, hitems⟩, ?_⟩
    rw [List.append_nil]
    exact hls
  · rintro _ _ _ ⟨rfl, rfl⟩
    exact ⟨[], rfl, nofun, .nil⟩

end

theorem operator (look : Op → Option OperatorDecl) (decls : List OperatorDecl)
    (hlook : ∀ op decl, look op = some decl → decl.op = op) :
    Yields (operator look decls) fun _ ls r => ∃ l, ls = [l] ∧ l.token = .operator r.1.op ∧
      look r.1.op = some r.1 ∧ r.2 = l.span := by
  refine (token _ _ _).imp ?_
  rintro _ _ ⟨decl, span⟩ ⟨l, rfl, haccept, rfl⟩
  cases ht : l.token with
  | operator op =>
    simp only [ht] at haccept
    obtain rfl := hlook op decl haccept
    exact ⟨l, rfl, ht, haccept, rfl⟩
  | _ => simp [ht] at haccept

section Forms

variable {core expr : Parser Expr}

theorem operand (hcore : Yields core fun _ => Written) :
    Yields (operand .standard core) fun _ => Written := by
  have hoperator := operator OperatorTable.standard.prefixed?
    OperatorTable.standard.prefixedDecls fun _ _ => OperatorTable.op_of_prefixed?
  refine (hoperator.many.bind fun _ => hcore.bind fun _ => pure _).imp ?_
  rintro _ _ _ ⟨us, _, ops, rfl, hops, vs, _, e, rfl, he, rfl, rfl⟩
  rw [List.append_nil]
  induction hops with
  | nil => exact he
  | cons first _ ih =>
    obtain ⟨l, rfl, hl, declared, hspan⟩ := first
    rw [List.foldr_cons, underPrefix, hspan]
    exact .unary hl declared ih

theorem chain (hcore : Yields core fun _ => Written) :
    Yields (chain .standard core) fun _ => Written := by
  have hoperator := operator OperatorTable.standard.infixed?
    OperatorTable.standard.infixedDecls fun _ _ => OperatorTable.op_of_infixed?
  have hoperand := operand hcore
  have hoperation : Yields (operation .standard core) fun _ ls r => ∃ l us,
      ls = l :: us ∧ l.token = .operator r.1.op ∧
        OperatorTable.standard.infixed? r.1.op = some r.1 ∧ Written us r.2 := by
    refine (hoperator.bind fun _ => hoperand.bind fun _ => pure _).imp ?_
    rintro _ _ _ ⟨_, _, ⟨decl, span⟩, rfl, ⟨l, rfl, hl, declared, -⟩, us, _, e, rfl, he, rfl, rfl⟩
    exact ⟨l, us, by simp, hl, declared, he⟩
  refine (hoperand.bind fun _ => hoperation.many.bind fun _ => pure _).imp ?_
  rintro _ _ _ ⟨us, _, first, rfl, hfirst, vs, _, rest, rfl, hrest, rfl, rfl⟩
  rw [List.append_nil]
  refine hfirst.climb ?_
  generalize stopAfter _ us = stop at hrest
  induction hrest with
  | nil => exact .nil
  | cons hnext _ ih =>
    obtain ⟨l, us, rfl, hl, declared, he⟩ := hnext
    exact .cons hl declared he ih

theorem stopAfter_last {ls : List Lexeme} {e : Expr} (h : Written ls e) :
    ∃ last, ls.getLast? = some last ∧ ∀ stop, stopAfter stop ls = last.span.stop := by
  have hlast := List.getLast?_eq_some_getLast h.ne_nil
  refine ⟨_, hlast, fun stop => ?_⟩
  rw [stopAfter, hlast]
  rfl

variable (hexpr : Yields expr fun _ => Written)

include hexpr

theorem binding : Yields (binding expr) fun _ => Written := by
  refine ((fixed _).bind fun _ => ident.bind fun _ => (fixed _).bind fun _ => hexpr.bind fun _ =>
    (fixed _).bind fun _ => hexpr.bind fun _ => lastStop.bind fun _ => pure _).imp ?_
  rintro _ _ _ ⟨_, _, _, rfl, ⟨opening, rfl, hopening, rfl⟩, _, _, n, rfl, ⟨l, rfl, hl⟩,
    _, _, _, rfl, ⟨equals, rfl, hequals, -⟩, ls, _, bound, rfl, hbound, _, _, _, rfl,
    ⟨inner, rfl, hinner, -⟩, ms, _, body, rfl, hbody, _, _, _, rfl, ⟨rfl, rfl⟩, rfl, rfl⟩
  obtain ⟨last, hlast, hstop⟩ := stopAfter_last hbody
  rw [hstop]
  simpa using .binding hopening hl hequals hbound hinner hbody hlast

theorem function : Yields (function expr) fun _ => Written := by
  refine ((fixed _).bind fun _ => ident.bind fun _ => ident.separated.parenthesized.bind fun _ =>
    (fixed _).bind fun _ => hexpr.bind fun _ => (fixed _).bind fun _ => hexpr.bind fun _ =>
    lastStop.bind fun _ => pure _).imp ?_
  rintro _ _ _ ⟨_, _, _, rfl, ⟨opening, rfl, hopening, rfl⟩, _, _, n, rfl, ⟨l, rfl, hl⟩,
    _, _, _, rfl, ⟨left, ks, right, rfl, hleft, ⟨params, rfl, names, hks⟩, hright⟩,
    _, _, _, rfl, ⟨equals, rfl, hequals, -⟩, ls, _, body, rfl, hbody, _, _, _, rfl,
    ⟨inner, rfl, hinner, -⟩, ms, _, context, rfl, hcontext, _, _, _, rfl, ⟨rfl, rfl⟩, rfl, rfl⟩
  obtain ⟨last, hlast, hstop⟩ := stopAfter_last hcontext
  rw [hstop]
  simpa using Written.function hopening hl hleft names hks hright hequals hbody hinner hcontext hlast

theorem conditional : Yields (conditional expr) fun _ => Written := by
  refine ((fixed _).bind fun _ => hexpr.bind fun _ => (fixed _).bind fun _ => hexpr.bind fun _ =>
    (fixed _).bind fun _ => hexpr.bind fun _ => lastStop.bind fun _ => pure _).imp ?_
  rintro _ _ _ ⟨_, _, _, rfl, ⟨opening, rfl, hopening, rfl⟩, ls, _, condition, rfl, hcondition,
    _, _, _, rfl, ⟨yes, rfl, hyes, -⟩, ms, _, positive, rfl, hpositive, _, _, _, rfl,
    ⟨no, rfl, hno, -⟩, ns, _, negative, rfl, hnegative, _, _, _, rfl, ⟨rfl, rfl⟩, rfl, rfl⟩
  obtain ⟨last, hlast, hstop⟩ := stopAfter_last hnegative
  rw [hstop]
  simpa using Written.conditional hopening hcondition hyes hpositive hno hnegative hlast

theorem referenceOrCall : Yields (referenceOrCall expr) fun _ => Written := by
  refine (ident.bind fun _ => ((hexpr.separated.parenthesized.bind fun _ =>
    lastStop.bind fun _ => pure _).imp fun _ _ _ => Or.inl).orElse
      ((pure _).imp fun _ _ _ => Or.inr)).imp ?_
  rintro _ _ _ ⟨_, _, n, rfl, ⟨l, rfl, hl⟩, ⟨_, _, _, rfl,
    ⟨opening, ls, closing, rfl, hopening, ⟨items, rfl, parts, hls⟩, hclosing⟩, _, _, _, rfl,
    ⟨rfl, rfl⟩, rfl, rfl⟩ | ⟨rfl, rfl⟩⟩
  · have hstop : ∀ stop, stopAfter stop (opening :: (ls ++ [closing])) = closing.span.stop := by
      intro stop
      rw [← List.cons_append, stopAfter_append]
      rfl
    rw [hstop]
    simpa using Written.call hl hopening parts hls hclosing
  · exact .reference hl

theorem group : Yields (Parser.parenthesized expr) fun _ => Written := by
  refine hexpr.parenthesized.imp ?_
  rintro _ _ e ⟨opening, ls, closing, rfl, hopening, he, hclosing⟩
  exact .group hopening he hclosing

theorem anyCore : Yields (anyCore expr) fun _ => Written :=
  ((binding hexpr).orElse ((function hexpr).orElse (conditional hexpr))).orElse
    (number.orElse ((referenceOrCall hexpr).orElse (group hexpr)))

omit hexpr in
theorem expression : ∀ depth, Yields (expression .standard Parser.anyCore depth) fun _ => Written
  | 0 => nofun
  | depth + 1 => chain (anyCore (expression depth))

end Forms

end Yields

end Parser

open Parser

/-- A tree that is parsed is written with the tokens of its source. -/
theorem parse_written {source : String} {e : Expr} (h : parse source = .ok e) :
    ∃ lexemes, lex source = .ok lexemes ∧ Written lexemes e := by
  obtain ⟨lexemes, hlex, hparse⟩ := parse_eq_ok.1 h
  refine ⟨lexemes, hlex, ?_⟩
  rw [parseTokens] at hparse
  cases hr : program .standard anyCore (lexemes.length + 1) ⟨lexemes, 0⟩ ⟨lexemes.length, []⟩ with
  | mk answer f =>
    cases answer with
    | none => simp [hr] at hparse
    | some r =>
      obtain ⟨e', c⟩ := r
      simp only [hr] at hparse
      cases hparse
      obtain ⟨_, c', f', hexpr, hrest⟩ := bind_ok hr
      obtain ⟨_, _, _, hend, hpure⟩ := bind_ok hrest
      cases hpure
      obtain ⟨ls, hls, -, hwritten⟩ := Yields.expression _ hexpr
      have hnone := List.map_eq_nil_iff.1 (endOfInput_ok hend)
      obtain rfl : lexemes = ls := by simpa [hnone] using hls
      exact hwritten

end Heightfield
