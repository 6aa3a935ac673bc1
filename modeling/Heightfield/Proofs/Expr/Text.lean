import Heightfield.Expr.Printer
import Heightfield.Proofs.Grammar.Trees

/-! The canonical text of a parsed tree spells tokens of the tree's own shape. -/

namespace Heightfield

open Lexer Grammar

namespace Expr

mutual

/-- The tokens of the canonical text. Infinity is written with a name. -/
def tokens : Expr → List Token
  | number value _ =>
    [if value.isInf then .ident "inf" else .number (Notation.plain value)]
  | reference name _ => [.ident name.name]
  | call callee args _ =>
    .ident callee.name :: .openParen :: (commaSeparated (tokensAll args) ++ [.closeParen])
  | unary op _ operand _ => .openParen :: .operator op :: (operand.tokens ++ [.closeParen])
  | binary op left right _ =>
    .openParen :: (left.tokens ++ .operator op :: (right.tokens ++ [.closeParen]))
  | binding name bound body _ =>
    .keyword .letKw :: .ident name.name :: .equals ::
      (bound.tokens ++ .keyword .inKw :: body.tokens)
  | function name params body context _ =>
    .keyword .letKw :: .ident name.name :: .openParen ::
      (commaSeparated (params.map fun p => [.ident p.name]) ++
        .closeParen :: .equals :: (body.tokens ++ .keyword .inKw :: context.tokens))
  | conditional condition positive negative _ =>
    .keyword .ifKw :: (condition.tokens ++ .keyword .thenKw :: (positive.tokens ++
      .keyword .elseKw :: negative.tokens))

def tokensAll : List Expr → List (List Token)
  | [] => []
  | e :: es => e.tokens :: tokensAll es

end

theorem tokensAll_eq (es : List Expr) : tokensAll es = es.map tokens := by
  induction es with
  | nil => rfl
  | cons e es ih => rw [tokensAll, ih, List.map_cons]

theorem texts_eq (es : List Expr) : texts es = es.map text := by
  induction es with
  | nil => rfl
  | cons e es ih => rw [texts, ih, List.map_cons]

end Expr

/-- What stands behind an expression in canonical text goes on with no token. -/
def Free (rest : List Char) : Prop := ∀ c, rest.head? = some c → c = ' ' ∨ c = ')' ∨ c = ','

/-- Before whatever may stand behind an expression, the text spells the tokens. -/
def Writes (cs : List Char) (ts : List Token) : Prop :=
  ∀ rest us, Free rest → Spells rest us → Spells (cs ++ rest) (ts ++ us)

theorem free_cons {c : Char} (h : c = ' ' ∨ c = ')' ∨ c = ',') (rest : List Char) :
    Free (c :: rest) := by
  intro d hd
  cases hd
  exact h

theorem Token.ends_of_free (t : Token) {rest : List Char} (h : Free rest) : t.Ends rest := by
  have hword : ∀ c, rest.head? = some c → continuesWord c = false := fun c hc => by
    rcases h c hc with rfl | rfl | rfl <;> decide
  have hequals : rest.head? ≠ some '=' := fun hc => by
    rcases h _ hc with heq | heq | heq <;> cases heq
  cases t with
  | keyword word => exact hword
  | ident name => exact hword
  | number digits =>
    intro c hc
    rcases h c hc with rfl | rfl | rfl <;> decide
  | operator op => cases op <;> first | exact hequals | trivial
  | equals => exact hequals
  | _ => trivial

theorem writes_token {t : Token} (h : t.WellFormed) : Writes t.spelling.toList [t] :=
  fun _ _ hrest hus => .token h (t.ends_of_free hrest) hus

namespace Spells

variable {rest : List Char} {ts : List Token}

theorem space (h : Spells rest ts) : Spells (' ' :: rest) ts := .blank rfl h

theorem openParen (h : Spells rest ts) : Spells ('(' :: rest) (.openParen :: ts) :=
  .token (t := .openParen) trivial trivial h

theorem closeParen (h : Spells rest ts) : Spells (')' :: rest) (.closeParen :: ts) :=
  .token (t := .closeParen) trivial trivial h

theorem comma (h : Spells rest ts) : Spells (',' :: ' ' :: rest) (.comma :: ts) :=
  .token (t := .comma) trivial trivial h.space

/-- A token with a space behind it. -/
theorem spaced {t : Token} (hformed : t.WellFormed) (h : Spells rest ts) :
    Spells (t.spelling.toList ++ ' ' :: rest) (t :: ts) :=
  .token hformed (t.ends_of_free (free_cons (.inl rfl) rest)) h.space

theorem before_paren {name : String} (hformed : (Token.ident name).WellFormed)
    (h : Spells rest ts) :
    Spells (name.toList ++ '(' :: rest) (.ident name :: .openParen :: ts) := by
  refine .token (t := .ident name) hformed (fun c hc => ?_) h.openParen
  cases hc
  decide

end Spells

theorem commaSeparated_cons (x y : List Token) (zs : List (List Token)) :
    commaSeparated (x :: y :: zs) = x ++ .comma :: commaSeparated (y :: zs) := by
  simp [commaSeparated, behindCommas]

theorem writes_list {β : Type} {f : β → String} {g : β → List Token} : ∀ {bs : List β},
    (∀ b ∈ bs, Writes (f b).toList (g b)) →
      Writes (", ".intercalate (bs.map f)).toList (commaSeparated (bs.map g))
  | [], _ => fun _ _ _ hus => hus
  | [b], hbs => by
    have hb := hbs b List.mem_cons_self
    rw [List.map_singleton, List.map_singleton, String.intercalate_singleton, commaSeparated,
      behindCommas, List.flatMap_nil, List.append_nil]
    exact hb
  | b :: b' :: bs, hbs => by
    intro rest us hrest hus
    obtain ⟨hb, hbs⟩ := List.forall_mem_cons.1 hbs
    have htail := writes_list hbs rest us hrest hus
    simp only [List.map_cons] at htail
    simp only [List.map_cons, String.intercalate_cons_cons, commaSeparated_cons,
      String.toList_append, List.append_assoc, List.cons_append]
    exact hb _ _ (free_cons (.inr (.inr rfl)) _) htail.comma

/-- Nothing goes on with a sign. -/
theorem sign_ends {op : Op} {decl : OperatorDecl}
    (h : OperatorTable.standard.prefixed? op = some decl) {rest : List Char} :
    (Token.operator op).Ends rest := by
  cases op <;> trivial

theorem inf_wellFormed : (Token.ident "inf").WellFormed :=
  ⟨⟨'i', ['n', 'f'], rfl, rfl, List.all_eq_true.1 rfl⟩, by decide⟩

theorem Decimal.chars_isNumber (d : Decimal) : IsNumber d.chars := by
  rw [chars_eq]
  split
  · exact .whole (toDigits_whole _) Nat.toDigits_ne_nil
  · next h =>
    refine .pointed (take_padded_whole d h)
      (fun c hc => isDigit_padded d c (List.mem_of_mem_drop hc)) (.inl ?_)
    have hlt := places_lt_padded d
    rw [← List.length_pos_iff, List.length_take]
    omega

namespace Expr

theorem plain_isNumber {k : Nat} (h : k < Binary64.infinity) :
    IsNumber (Notation.plain (Binary64.toFloat k)).toList := by
  rw [Notation.plain_toFloat h, String.toList_ofList]
  exact Decimal.chars_isNumber _

theorem number_writes {k : Nat} (h : k ≤ Binary64.infinity) (s : Span) :
    Writes (number (Binary64.toFloat k) s).text.toList (number (Binary64.toFloat k) s).tokens := by
  rw [text, tokens, Binary64.isInf_toFloat h]
  rcases Nat.lt_or_eq_of_le h with hlt | rfl
  · rw [if_neg (by simpa using Nat.ne_of_lt hlt)]
    exact writes_token (t := .number _) (plain_isNumber hlt)
  · rw [if_pos (decide_eq_true rfl), Notation.plain_infinity]
    exact writes_token (t := .ident "inf") inf_wellFormed

mutual

-- Each text is put together from its end, since a token is read up to what stands behind it.
theorem text_writes : ∀ e : Expr, e.Legible → Writes e.text.toList e.tokens
  | number value s, h => by
    obtain ⟨k, hk, rfl⟩ := List.forall_mem_singleton.1 h
    exact number_writes hk s
  | reference name s, h => by
    have hname := List.forall_mem_singleton.1 h
    exact writes_token (t := .ident name.name) hname
  | call callee args s, h => by
    obtain ⟨hname, hargs⟩ := List.forall_mem_cons.1 h
    intro rest us hrest hus
    have hps := writes_list (texts_write args hargs) _ _ (free_cons (.inr (.inl rfl)) _)
      hus.closeParen
    have hn := hps.before_paren hname
    simp only [text, tokens, texts_eq, tokensAll_eq, String.toList_append, List.append_assoc,
      List.cons_append]
    exact hn
  | unary op fixity operand s, h => by
    obtain ⟨⟨rfl, decl, hdecl⟩, hoperand⟩ := List.forall_mem_cons.1 h
    intro rest us hrest hus
    have hclose := hus.closeParen
    have hinner := text_writes operand hoperand _ _ (free_cons (.inr (.inl rfl)) _) hclose
    have hop := Spells.token (t := .operator op) trivial (sign_ends hdecl) hinner
    simp only [text, tokens, String.toList_append, List.append_assoc, List.cons_append]
    exact hop.openParen
  | binary op left right s, h => by
    obtain ⟨-, hsides⟩ := List.forall_mem_cons.1 h
    obtain ⟨hleft, hright⟩ := List.forall_mem_append.1 hsides
    intro rest us hrest hus
    have hclose := hus.closeParen
    have hr := text_writes right hright _ _ (free_cons (.inr (.inl rfl)) _) hclose
    have hop := (Spells.spaced (t := .operator op) trivial hr).space
    have hl := text_writes left hleft _ _ (free_cons (.inl rfl) _) hop
    simp only [text, tokens, String.toList_append, List.append_assoc, List.cons_append]
    exact hl.openParen
  | binding name bound body s, h => by
    obtain ⟨hname, hparts⟩ := List.forall_mem_cons.1 h
    obtain ⟨hbound, hbody⟩ := List.forall_mem_append.1 hparts
    intro rest us hrest hus
    have hb := text_writes body hbody _ _ hrest hus
    have hin := (Spells.spaced (t := .keyword .inKw) trivial hb).space
    have hv := text_writes bound hbound _ _ (free_cons (.inl rfl) _) hin
    have heq := Spells.spaced (t := .equals) trivial hv
    have hn := Spells.spaced (t := .ident name.name) hname heq
    have hlet := Spells.spaced (t := .keyword .letKw) trivial hn
    simp only [text, tokens, String.toList_append, List.append_assoc, List.cons_append]
    exact hlet
  | function name params body context s, h => by
    obtain ⟨⟨hname, hparams⟩, hparts⟩ := List.forall_mem_cons.1 h
    obtain ⟨hbody, hcontext⟩ := List.forall_mem_append.1 hparts
    intro rest us hrest hus
    have hc := text_writes context hcontext _ _ hrest hus
    have hin := (Spells.spaced (t := .keyword .inKw) trivial hc).space
    have hb := text_writes body hbody _ _ (free_cons (.inl rfl) _) hin
    have heq := (Spells.spaced (t := .equals) trivial hb).space.closeParen
    have hps := writes_list (f := (·.name)) (g := fun p => [Token.ident p.name])
      (fun p hp => writes_token (hparams p hp)) _ _ (free_cons (.inr (.inl rfl)) _) heq
    have hn := hps.before_paren hname
    have hlet := Spells.spaced (t := .keyword .letKw) trivial hn
    simp only [text, tokens, String.toList_append, List.append_assoc, List.cons_append]
    exact hlet
  | conditional condition positive negative s, h => by
    obtain ⟨-, hparts⟩ := List.forall_mem_cons.1 h
    obtain ⟨hparts, hnegative⟩ := List.forall_mem_append.1 hparts
    obtain ⟨hcondition, hpositive⟩ := List.forall_mem_append.1 hparts
    intro rest us hrest hus
    have hn := text_writes negative hnegative _ _ hrest hus
    have helse := (Spells.spaced (t := .keyword .elseKw) trivial hn).space
    have hp := text_writes positive hpositive _ _ (free_cons (.inl rfl) _) helse
    have hthen := (Spells.spaced (t := .keyword .thenKw) trivial hp).space
    have hc := text_writes condition hcondition _ _ (free_cons (.inl rfl) _) hthen
    have hif := Spells.spaced (t := .keyword .ifKw) trivial hc
    simp only [text, tokens, String.toList_append, List.append_assoc, List.cons_append]
    exact hif

theorem texts_write : ∀ es : List Expr, (∀ node ∈ nodesAll es, node.WellRead) →
    ∀ e ∈ es, Writes e.text.toList e.tokens
  | [], _ => nofun
  | e :: es, h => by
    obtain ⟨he, hes⟩ := List.forall_mem_append.1 h
    exact List.forall_mem_cons.2 ⟨text_writes e he, texts_write es hes⟩

end

/-- The canonical text of a tree that is legible has the tree's tokens. -/
theorem lex_text {e : Expr} (h : e.Legible) :
    ∃ lexemes, lex e.text = .ok lexemes ∧ lexemes.map (·.token) = e.tokens := by
  have hspells := text_writes e h [] [] nofun .done
  rw [List.append_nil, List.append_nil] at hspells
  exact hspells.lex

end Expr

end Heightfield
