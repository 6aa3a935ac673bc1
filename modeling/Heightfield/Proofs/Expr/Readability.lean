import Heightfield.Proofs.Expr.Text

/-! The tokens of canonical text can be read in one way only: no tree's tokens go on to those of
another tree, since what stands behind a tree is never a parenthesis that opens. -/

namespace Heightfield

open Grammar

/-- No parenthesis opens here, so a name before this is not called. -/
def Uncalled (rest : List Token) : Prop := rest.head? ≠ some .openParen

theorem uncalled_nil : Uncalled [] := nofun

theorem uncalled_cons {t : Token} (h : t ≠ .openParen) (rest : List Token) : Uncalled (t :: rest) :=
  fun hhead => h (Option.some.inj hhead)

section

variable {α β : Type} {f : α → List Token} {g : α → β} {P : α → Prop}

/-- Where the tokens of `a` stand first, there stand first those of no `P` with another value. -/
def Readable (f : α → List Token) (g : α → β) (P : α → Prop) (a : α) : Prop :=
  ∀ a' rest rest', P a' → Uncalled rest → Uncalled rest' → f a ++ rest = f a' ++ rest' →
    g a = g a' ∧ rest = rest'

/-- A token that an expression begins with. -/
def Token.Begins : Token → Prop
  | .number _ | .ident _ | .openParen | .keyword .letKw | .keyword .ifKw => True
  | _ => False

/-- What `f` makes of a `P` begins like an expression. -/
def Beginning (f : α → List Token) (P : α → Prop) : Prop :=
  ∀ a, P a → ∃ t ts, f a = t :: ts ∧ t.Begins

theorem behindCommas_cons (item : List Token) (items : List (List Token)) :
    behindCommas (item :: items) = .comma :: (item ++ behindCommas items) := rfl

theorem uncalled_behindCommas (items : List (List Token)) (rest : List Token) :
    Uncalled (behindCommas items ++ .closeParen :: rest) := by
  cases items with
  | nil => exact uncalled_cons (by simp) _
  | cons item items => exact uncalled_cons (by simp) _

theorem readable_behindCommas {as as' : List α} {rest rest' : List Token}
    (has : ∀ a ∈ as, Readable f g P a) (has' : ∀ a ∈ as', P a)
    (h : behindCommas (as.map f) ++ .closeParen :: rest =
      behindCommas (as'.map f) ++ .closeParen :: rest') :
    as.map g = as'.map g ∧ rest = rest' := by
  induction as generalizing as' with
  | nil =>
    cases as' with
    | nil =>
      cases h
      exact ⟨rfl, rfl⟩
    | cons a' as' => cases h
  | cons a as ih =>
    cases as' with
    | nil => cases h
    | cons a' as' =>
      obtain ⟨ha, has⟩ := List.forall_mem_cons.1 has
      obtain ⟨ha', has'⟩ := List.forall_mem_cons.1 has'
      simp only [List.map_cons, behindCommas_cons, List.cons_append, List.append_assoc,
        List.cons.injEq, true_and] at h ⊢
      obtain ⟨heq, htail⟩ :=
        ha a' _ _ ha' (uncalled_behindCommas _ _) (uncalled_behindCommas _ _) h
      obtain ⟨hrest, hend⟩ := ih has has' htail
      exact ⟨⟨heq, hrest⟩, hend⟩

/-- A list in parentheses is read item by item. -/
theorem readable_commaSeparated (hf : Beginning f P) {as as' : List α} {rest rest' : List Token}
    (has : ∀ a ∈ as, P a ∧ Readable f g P a) (has' : ∀ a ∈ as', P a)
    (h : commaSeparated (as.map f) ++ .closeParen :: rest =
      commaSeparated (as'.map f) ++ .closeParen :: rest') :
    as.map g = as'.map g ∧ rest = rest' := by
  have hclose : ∀ {a ts ts' us}, P a → .closeParen :: us ≠ f a ++ ts ++ ts' := by
    intro a ts ts' us ha heq
    obtain ⟨t, vs, hts, hbegins⟩ := hf a ha
    rw [hts] at heq
    cases heq
    exact hbegins
  cases as with
  | nil =>
    cases as' with
    | nil =>
      cases h
      exact ⟨rfl, rfl⟩
    | cons a' as' => exact absurd h (hclose (has' a' List.mem_cons_self))
  | cons a as =>
    cases as' with
    | nil => exact absurd h.symm (hclose (has a List.mem_cons_self).1)
    | cons a' as' =>
      obtain ⟨⟨-, ha⟩, has⟩ := List.forall_mem_cons.1 has
      obtain ⟨ha', has'⟩ := List.forall_mem_cons.1 has'
      simp only [List.map_cons, commaSeparated, List.append_assoc, List.cons.injEq] at h ⊢
      obtain ⟨heq, htail⟩ :=
        ha a' _ _ ha' (uncalled_behindCommas _ _) (uncalled_behindCommas _ _) h
      obtain ⟨hrest, hend⟩ := readable_behindCommas (fun a ha => (has a ha).2) has' htail
      exact ⟨⟨heq, hrest⟩, hend⟩

end

namespace Expr

/-- A node whose tokens tell what it is: a finite number, an operator where it can be written. -/
def Told : Expr → Prop
  | number value _ => ∃ k, k < Binary64.infinity ∧ value = Binary64.toFloat k
  | unary _ fixity _ _ => fixity = .prefixed
  | _ => True

def AllTold (e : Expr) : Prop := ∀ node ∈ e.nodes, node.Told

theorem allTold_of_mem {es : List Expr} (h : ∀ node ∈ nodesAll es, node.Told) :
    ∀ e ∈ es, e.AllTold := by
  induction es with
  | nil => exact nofun
  | cons e es ih =>
    obtain ⟨he, hes⟩ := List.forall_mem_append.1 h
    exact List.forall_mem_cons.2 ⟨he, ih hes⟩

theorem tokens_number {value : Float} {s : Span} (h : (number value s).AllTold) :
    (number value s).tokens = [.number (Notation.plain value)] := by
  obtain ⟨k, hk, rfl⟩ := h _ List.mem_cons_self
  rw [tokens, Binary64.isInf_toFloat (Nat.le_of_lt hk), if_neg (by simpa using Nat.ne_of_lt hk)]

theorem cons_ne_number {value : Float} {s : Span} {t : Token} {ts rest : List Token}
    (h : (number value s).AllTold) (ht : ∀ digits, t ≠ .number digits) :
    t :: ts ≠ (number value s).tokens ++ rest := by
  rw [tokens_number h]
  intro heq
  cases heq
  exact ht _ rfl

theorem tokens_beginning : Beginning tokens AllTold := by
  intro e he
  cases e with
  | number value s =>
    rw [tokens_number he]
    exact ⟨_, _, rfl, trivial⟩
  | _ => exact ⟨_, _, rfl, trivial⟩

/-- The tree's own tokens tell it from all others. -/
abbrev TellsApart (e : Expr) : Prop := Readable tokens bare AllTold e

section

variable {n : Ident} {op : Op} {s : Span}

theorem tellsApart_number {value : Float} (h : (number value s).AllTold) :
    TellsApart (number value s) := by
  intro e' rest rest' he' _ _ heq
  rw [tokens_number h] at heq
  cases e' with
  | number value' s' =>
    rw [tokens_number he'] at heq
    simp only [List.cons_append, List.nil_append, List.cons.injEq, Token.number.injEq] at heq
    obtain ⟨hplain, hrest⟩ := heq
    obtain ⟨k, hk, rfl⟩ := h _ List.mem_cons_self
    obtain ⟨k', hk', rfl⟩ := he' _ List.mem_cons_self
    refine ⟨?_, hrest⟩
    rw [bare, bare, ← Notation.toFloat_ofChars_plain hk, hplain,
      Notation.toFloat_ofChars_plain hk']
  | _ => cases heq

theorem tellsApart_reference : TellsApart (reference n s) := by
  intro e' rest rest' he' hrest _ heq
  cases e' with
  | number value' s' => exact absurd heq (cons_ne_number he' nofun)
  | reference n' s' =>
    simp only [tokens, List.cons_append, List.nil_append, List.cons.injEq,
      Token.ident.injEq] at heq
    exact ⟨by rw [bare, bare, heq.1], heq.2⟩
  | call n' args' s' =>
    simp only [tokens, List.cons_append, List.nil_append, List.cons.injEq] at heq
    rw [heq.2] at hrest
    exact absurd rfl hrest
  | _ => cases heq

theorem tellsApart_call {args : List Expr} (hargs : ∀ e ∈ args, e.AllTold ∧ TellsApart e) :
    TellsApart (call n args s) := by
  intro e' rest rest' he' _ hrest' heq
  cases e' with
  | number value' s' => exact absurd heq (cons_ne_number he' nofun)
  | reference n' s' =>
    simp only [tokens, List.cons_append, List.nil_append, List.cons.injEq] at heq
    rw [← heq.2] at hrest'
    exact absurd rfl hrest'
  | call n' args' s' =>
    simp only [tokens, tokensAll_eq, List.cons_append, List.nil_append, List.append_assoc,
      List.cons.injEq, Token.ident.injEq, true_and] at heq
    obtain ⟨hname, hlist⟩ := heq
    have hargs' := allTold_of_mem (List.forall_mem_cons.1 he').2
    obtain ⟨hsame, hrest⟩ := readable_commaSeparated tokens_beginning hargs hargs' hlist
    rw [bare, bare, hname, bareAll_eq, bareAll_eq, hsame]
    exact ⟨rfl, hrest⟩
  | _ => cases heq

theorem tellsApart_unary {operand : Expr} (h : TellsApart operand) :
    TellsApart (unary op .prefixed operand s) := by
  intro e' rest rest' he' _ _ heq
  cases e' with
  | number value' s' => exact absurd heq (cons_ne_number he' nofun)
  | unary op' fixity' operand' s' =>
    obtain ⟨hfixity, hoperand'⟩ := List.forall_mem_cons.1 he'
    simp only [tokens, List.cons_append, List.nil_append, List.append_assoc, List.cons.injEq,
      Token.operator.injEq, true_and] at heq
    obtain ⟨hsame, hrest⟩ := h _ _ _ hoperand' (uncalled_cons (by simp) _)
      (uncalled_cons (by simp) _) heq.2
    rw [bare, bare, heq.1, hsame, hfixity]
    exact ⟨rfl, (List.cons.inj hrest).2⟩
  | binary op' left' right' s' =>
    obtain ⟨-, hsides⟩ := List.forall_mem_cons.1 he'
    obtain ⟨t, ts, hts, hbegins⟩ := tokens_beginning left' (List.forall_mem_append.1 hsides).1
    simp only [tokens, hts, List.cons_append, List.cons.injEq, true_and] at heq
    rw [← heq.1] at hbegins
    exact hbegins.elim
  | _ => cases heq

theorem tellsApart_binary {left right : Expr} (hleft : left.AllTold) (hl : TellsApart left)
    (hr : TellsApart right) : TellsApart (binary op left right s) := by
  intro e' rest rest' he' _ _ heq
  cases e' with
  | number value' s' => exact absurd heq (cons_ne_number he' nofun)
  | unary op' fixity' operand' s' =>
    obtain ⟨t, ts, hts, hbegins⟩ := tokens_beginning left hleft
    simp only [tokens, hts, List.cons_append, List.cons.injEq, true_and] at heq
    rw [heq.1] at hbegins
    exact hbegins.elim
  | binary op' left' right' s' =>
    obtain ⟨-, hsides⟩ := List.forall_mem_cons.1 he'
    obtain ⟨hleft', hright'⟩ := List.forall_mem_append.1 hsides
    simp only [tokens, List.cons_append, List.nil_append, List.append_assoc, List.cons.injEq,
      true_and] at heq
    obtain ⟨hl, heq⟩ := hl _ _ _ hleft' (uncalled_cons (by simp) _) (uncalled_cons (by simp) _) heq
    simp only [List.cons.injEq, Token.operator.injEq] at heq
    obtain ⟨hr, heq'⟩ :=
      hr _ _ _ hright' (uncalled_cons (by simp) _) (uncalled_cons (by simp) _) heq.2
    rw [bare, bare, heq.1, hl, hr]
    exact ⟨rfl, (List.cons.inj heq').2⟩
  | _ => cases heq

theorem tellsApart_binding {bound body : Expr} (hbound : TellsApart bound)
    (hbody : TellsApart body) : TellsApart (binding n bound body s) := by
  intro e' rest rest' he' hrest hrest' heq
  cases e' with
  | number value' s' => exact absurd heq (cons_ne_number he' nofun)
  | binding n' bound' body' s' =>
    obtain ⟨-, hparts⟩ := List.forall_mem_cons.1 he'
    obtain ⟨hbound', hbody'⟩ := List.forall_mem_append.1 hparts
    simp only [tokens, List.cons_append, List.append_assoc, List.cons.injEq, Token.ident.injEq,
      true_and] at heq
    obtain ⟨hv, heq'⟩ :=
      hbound _ _ _ hbound' (uncalled_cons (by simp) _) (uncalled_cons (by simp) _) heq.2
    obtain ⟨hb, hrest⟩ := hbody _ _ _ hbody' hrest hrest' (List.cons.inj heq').2
    rw [bare, bare, heq.1, hv, hb]
    exact ⟨rfl, hrest⟩
  | _ => simp [tokens] at heq

theorem readable_param (p : Ident) : Readable (fun p : Ident => [Token.ident p.name])
    (fun p => Ident.bare p.name) (fun _ => True) p := by
  intro p' rest rest' _ _ _ heq
  simp only [List.cons_append, List.nil_append, List.cons.injEq, Token.ident.injEq] at heq
  exact ⟨congrArg Ident.bare heq.1, heq.2⟩

theorem tellsApart_function {params : List Ident} {body context : Expr} (hbody : TellsApart body)
    (hcontext : TellsApart context) : TellsApart (function n params body context s) := by
  intro e' rest rest' he' hrest hrest' heq
  cases e' with
  | number value' s' => exact absurd heq (cons_ne_number he' nofun)
  | function n' params' body' context' s' =>
    obtain ⟨-, hparts⟩ := List.forall_mem_cons.1 he'
    obtain ⟨hbody', hcontext'⟩ := List.forall_mem_append.1 hparts
    simp only [tokens, List.cons_append, List.append_assoc, List.cons.injEq, Token.ident.injEq,
      true_and] at heq
    obtain ⟨hp, heq'⟩ := readable_commaSeparated (fun p _ => ⟨.ident p.name, [], rfl, trivial⟩)
      (fun p _ => ⟨trivial, readable_param p⟩) (fun _ _ => trivial) heq.2
    obtain ⟨hb, heq''⟩ := hbody _ _ _ hbody' (uncalled_cons (by simp) _) (uncalled_cons (by simp) _)
      (List.cons.inj heq').2
    obtain ⟨hc, hrest⟩ := hcontext _ _ _ hcontext' hrest hrest' (List.cons.inj heq'').2
    rw [bare, bare, heq.1, hp, hb, hc]
    exact ⟨rfl, hrest⟩
  | _ => simp [tokens] at heq

theorem tellsApart_conditional {condition positive negative : Expr}
    (hcondition : TellsApart condition) (hpositive : TellsApart positive)
    (hnegative : TellsApart negative) :
    TellsApart (conditional condition positive negative s) := by
  intro e' rest rest' he' hrest hrest' heq
  cases e' with
  | number value' s' => exact absurd heq (cons_ne_number he' nofun)
  | conditional condition' positive' negative' s' =>
    obtain ⟨-, hparts⟩ := List.forall_mem_cons.1 he'
    obtain ⟨hparts, hnegative'⟩ := List.forall_mem_append.1 hparts
    obtain ⟨hcondition', hpositive'⟩ := List.forall_mem_append.1 hparts
    simp only [tokens, List.cons_append, List.append_assoc, List.cons.injEq, true_and] at heq
    obtain ⟨hc, heq⟩ := hcondition _ _ _ hcondition' (uncalled_cons (by simp) _)
      (uncalled_cons (by simp) _) heq
    obtain ⟨hp, heq⟩ := hpositive _ _ _ hpositive' (uncalled_cons (by simp) _)
      (uncalled_cons (by simp) _) (List.cons.inj heq).2
    obtain ⟨hn, hrest⟩ := hnegative _ _ _ hnegative' hrest hrest' (List.cons.inj heq).2
    rw [bare, bare, hc, hp, hn]
    exact ⟨rfl, hrest⟩
  | _ => cases heq

end

mutual

theorem tellsApart : ∀ e : Expr, e.AllTold → TellsApart e
  | number _ _, h => tellsApart_number h
  | reference _ _, _ => tellsApart_reference
  | call _ args _, h => tellsApart_call (tellsApartAll args (List.forall_mem_cons.1 h).2)
  | unary _ _ operand _, h => by
    obtain ⟨rfl, hoperand⟩ := List.forall_mem_cons.1 h
    exact tellsApart_unary (tellsApart operand hoperand)
  | binary _ left right _, h => by
    obtain ⟨hleft, hright⟩ := List.forall_mem_append.1 (List.forall_mem_cons.1 h).2
    exact tellsApart_binary hleft (tellsApart left hleft) (tellsApart right hright)
  | binding _ bound body _, h => by
    obtain ⟨hbound, hbody⟩ := List.forall_mem_append.1 (List.forall_mem_cons.1 h).2
    exact tellsApart_binding (tellsApart bound hbound) (tellsApart body hbody)
  | function _ _ body context _, h => by
    obtain ⟨hbody, hcontext⟩ := List.forall_mem_append.1 (List.forall_mem_cons.1 h).2
    exact tellsApart_function (tellsApart body hbody) (tellsApart context hcontext)
  | conditional condition positive negative _, h => by
    obtain ⟨hparts, hnegative⟩ := List.forall_mem_append.1 (List.forall_mem_cons.1 h).2
    obtain ⟨hcondition, hpositive⟩ := List.forall_mem_append.1 hparts
    exact tellsApart_conditional (tellsApart condition hcondition)
      (tellsApart positive hpositive) (tellsApart negative hnegative)

theorem tellsApartAll : ∀ es : List Expr, (∀ node ∈ nodesAll es, node.Told) →
    ∀ e ∈ es, e.AllTold ∧ TellsApart e
  | [], _ => nofun
  | e :: es, h => by
    obtain ⟨he, hes⟩ := List.forall_mem_append.1 h
    exact List.forall_mem_cons.2 ⟨⟨he, tellsApart e he⟩, tellsApartAll es hes⟩

end

end Expr

end Heightfield
