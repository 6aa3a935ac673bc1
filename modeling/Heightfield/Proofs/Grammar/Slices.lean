import Heightfield.Proofs.Expr.Reparse
import Heightfield.Proofs.Grammar.Places

/-! What is written is derivable, and so each call of a source, cut out of it, is a source of its
own. -/

namespace Heightfield

open Grammar

theorem Separated.tokens {pieces : List (List Lexeme)} {ls : List Lexeme}
    (h : Separated pieces ls) :
    ls.map (·.token) = commaSeparated (pieces.map (·.map (·.token))) := by
  induction h with
  | nil => rfl
  | one => simp [commaSeparated, behindCommas]
  | more hcomma _ ih =>
    rw [List.map_append, List.map_cons, hcomma, ih]
    exact (commaSeparated_cons _ _ _).symm

theorem names_tokens {params : List (List Lexeme × Ident)} (h : ∀ p ∈ params, IsName p.1 p.2) :
    (params.map (·.1)).map (·.map (·.token)) =
      (params.map (·.2.name)).map fun name => [.ident name] := by
  simp only [List.map_map]
  refine List.map_congr_left fun p hp => ?_
  obtain ⟨l, hl, hname⟩ := h p hp
  simp [hl, (Lexeme.ident?_eq_some.1 hname).1]

theorem exists_phrases {items : List (List Lexeme × Expr)}
    (h : ∀ item ∈ items, ∃ p : Phrase .standard, p.tokens = item.1.map (·.token)) :
    ∃ ps : List (Phrase .standard),
      tokensAll ps = (items.map (·.1)).map (·.map (·.token)) := by
  induction items with
  | nil => exact ⟨[], rfl⟩
  | cons item items ih =>
    obtain ⟨⟨p, hp⟩, hitems⟩ := List.forall_mem_cons.1 h
    obtain ⟨ps, hps⟩ := ih hitems
    exact ⟨p :: ps, by rw [tokensAll, hp, hps]; rfl⟩

namespace Grammar

variable {table : OperatorTable}

/-- Another prefix operator before the first operand. -/
def Phrase.signed (decl : OperatorDecl) (declared : table.prefixed? decl.op = some decl) :
    Phrase table → Phrase table
  | .last o => .last (.prefixed decl declared o)
  | .more o d h tail => .more (.prefixed decl declared o) d h tail

theorem Phrase.signed_tokens {decl : OperatorDecl}
    (declared : table.prefixed? decl.op = some decl) (p : Phrase table) :
    (p.signed decl declared).tokens = .operator decl.op :: p.tokens := by
  cases p <;> rfl

end Grammar

theorem Lexeme.token_of_ident? {l : Lexeme} {n : Ident} (h : l.ident? = some n) :
    l.token = .ident n.name := (ident?_eq_some.1 h).1

theorem call_tokens {l opening closing : Lexeme} {n : Ident} {ls : List Lexeme}
    {items : List (List Lexeme × Expr)} {ps : List (Phrase .standard)} (hl : l.ident? = some n)
    (hopening : opening.token = .openParen) (hls : Separated (items.map (·.1)) ls)
    (hclosing : closing.token = .closeParen)
    (hps : tokensAll ps = (items.map (·.1)).map (·.map (·.token))) :
    (Core.call n.name ps).tokens = (l :: opening :: (ls ++ [closing])).map (·.token) := by
  simp only [Core.tokens, hps, List.map_cons, List.map_append, List.map_nil, hls.tokens,
    Lexeme.token_of_ident? hl, hopening, hclosing]

/-- What is written is derivable. -/
theorem Written.phrase {ls : List Lexeme} {e : Expr} (h : Written ls e) :
    ∃ p : Phrase .standard, p.tokens = ls.map (·.token) := by
  induction h with
  | @number l digits hl =>
    refine ⟨Core.alone (.number digits), ?_⟩
    simp [Core.tokens, hl]
  | @reference l n hl =>
    refine ⟨Core.alone (.reference n.name), ?_⟩
    simp [Core.tokens, Lexeme.token_of_ident? hl]
  | @call l n opening ls closing items hl hopening parts hls hclosing ih =>
    obtain ⟨ps, hps⟩ := exists_phrases ih
    exact ⟨Core.alone (.call n.name ps), call_tokens hl hopening hls hclosing hps⟩
  | group hopening _ hclosing ih =>
    obtain ⟨p, hp⟩ := ih
    refine ⟨Core.alone (.group p), ?_⟩
    simp [Core.tokens, hopening, hclosing, hp]
  | unary hl declared _ ih =>
    obtain ⟨p, hp⟩ := ih
    refine ⟨p.signed _ declared, ?_⟩
    rw [Phrase.signed_tokens, hp, List.map_cons, hl]
  | binary _ hl declared _ ih₁ ih₂ =>
    obtain ⟨p, hp⟩ := ih₁
    obtain ⟨q, hq⟩ := ih₂
    refine ⟨p.append _ declared q, ?_⟩
    rw [Phrase.append_tokens, hp, hq, List.map_append, List.map_cons, hl]
  | @binding _ _ n _ _ _ _ _ _ _ hopening hl hequals _ hinner _ _ ih₁ ih₂ =>
    obtain ⟨p, hp⟩ := ih₁
    obtain ⟨q, hq⟩ := ih₂
    refine ⟨Core.alone (.binding n.name p q), ?_⟩
    simp [Core.tokens, Lexeme.token_of_ident? hl, hopening, hequals, hinner, hp, hq]
  | @function _ _ n _ _ _ _ _ _ _ _ _ _ params hopening hl hleft names hks hright hequals _ hinner
      _ _ ih₁ ih₂ =>
    obtain ⟨p, hp⟩ := ih₁
    obtain ⟨q, hq⟩ := ih₂
    refine ⟨Core.alone (.function n.name (params.map (·.2.name)) p q), ?_⟩
    have hparams := hks.tokens
    rw [names_tokens names] at hparams
    simp [Core.tokens, Lexeme.token_of_ident? hl, hopening, hleft, hright, hequals,
      hinner, hp, hq, hparams]
  | conditional hopening _ hyes _ hno _ _ ih₁ ih₂ ih₃ =>
    obtain ⟨p, hp⟩ := ih₁
    obtain ⟨q, hq⟩ := ih₂
    obtain ⟨r, hr⟩ := ih₃
    refine ⟨Core.alone (.conditional p q r), ?_⟩
    simp [Core.tokens, hopening, hyes, hno, hp, hq, hr]

/-- A call is written from its name to the parenthesis that closes it, with a phrase for each
argument. -/
theorem Written.call_phrases {ms : List Lexeme} {n : Ident} {args : List Expr} {s : Span}
    (h : Written ms (.call n args s)) : ∃ l ls closing, l :: (ls ++ [closing]) <:+: ms ∧
      s = ⟨l.span.start, closing.span.stop⟩ ∧ ∃ ps : List (Phrase .standard),
        ps.length = args.length ∧
        (Core.call n.name ps).tokens = (l :: (ls ++ [closing])).map (·.token) := by
  generalize he : Expr.call n args s = e at h
  induction h with
  | @call l m opening ls closing items hl hopening parts hls hclosing _ =>
    cases he
    obtain ⟨ps, hps⟩ := exists_phrases fun item hitem => (parts item hitem).phrase
    have hlength := congrArg List.length hps
    rw [tokensAll_eq] at hlength
    refine ⟨l, opening :: ls, closing, List.infix_refl _, ?_, ps, by simpa using hlength, ?_⟩
    · rw [(Lexeme.ident?_eq_some.1 hl).2]
    · exact call_tokens hl hopening hls hclosing hps
  | @group opening ls e closing _ _ _ ih =>
    obtain ⟨l, ls', closing', hinfix, hrest⟩ := ih he
    exact ⟨l, ls', closing', hinfix.trans ⟨[opening], [closing], by simp⟩, hrest⟩
  | _ => cases he

theorem Expr.eq_call_of_bare {e : Expr} {name : String} {args : List Expr}
    (h : e.bare = .call (.bare name) args ⟨0, 0⟩) : ∃ callee args' s,
      e = .call callee args' s ∧ callee.name = name ∧ args'.map bare = args := by
  cases e with
  | call callee args' s =>
    injection h with hcallee hargs _
    rw [bareAll_eq] at hargs
    injection hcallee with hname _
    exact ⟨callee, args', s, rfl, hname, hargs⟩
  | _ => cases h

/-- A call of a source, cut out of it, is read as a call of that name with as many arguments. -/
theorem parse_call {source : String} {e : Expr} {n : Ident} {args : List Expr} {s : Span}
    (h : parse source = .ok e) (hnode : .call n args s ∈ e.nodes) :
    ∃ text : String, s.slice? source.toList = some text.toList ∧ ∃ callee args' s',
      parse text = .ok (.call callee args' s') ∧ callee.name = n.name ∧
        args'.length = args.length := by
  obtain ⟨lexemes, hlex, hwritten⟩ := parse_written h
  obtain ⟨ms, hms, hcall⟩ := hwritten.node hnode
  obtain ⟨l, ls, closing, hinfix, rfl, ps, hlength, htokens⟩ := hcall.call_phrases
  obtain ⟨before, behind, hlexemes⟩ := hinfix.trans hms
  have hstretch : lexemes = before ++ l :: (ls ++ closing :: behind) := by
    rw [← hlexemes]
    simp
  rw [hstretch] at hlex
  obtain ⟨text, hslice, cut, hcut, hsame⟩ := lex_slice hlex
  obtain ⟨qs, hqs, hqps⟩ := exists_normalAll ps
  have hcut' : (Core.call n.name qs).alone.tokens = cut.map (·.token) := by
    rw [hsame, ← htokens, Core.alone_tokens, Core.tokens, Core.tokens, hqps]
  have hnormal : (Core.call n.name qs).alone.Normal := hqs
  obtain ⟨e', hparse, htree⟩ := parseTokens_of_normal hnormal hcut' text
  rw [Phrase.tree, Core.climbed_alone, Core.tree, treesAll_eq] at htree
  obtain ⟨callee, args', s', rfl, hcallee, hargs⟩ := Expr.eq_call_of_bare htree
  have hcount := congrArg List.length hargs
  have hcount' := congrArg List.length hqps
  rw [tokensAll_eq, tokensAll_eq] at hcount'
  refine ⟨text, hslice, callee, args', s', parse_eq_ok.2 ⟨cut, hcut, hparse⟩, hcallee, ?_⟩
  simp only [List.length_map] at hcount hcount'
  omega

end Heightfield
