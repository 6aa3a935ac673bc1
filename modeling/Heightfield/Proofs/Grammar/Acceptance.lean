import Heightfield.Parse
import Heightfield.Proofs.Grammar.Exact
import Heightfield.Proofs.Grammar.Sound

/-! The parser accepts what the grammar derives, and its answer is the tree of the greedy
derivation. -/

namespace Heightfield

namespace Grammar

open Heightfield.Parser

variable {table : OperatorTable} {p : Phrase table} {rest : List Token}

/-- A parser stops at one place only. -/
theorem takes_unique {α : Type} {parser : Parser α} {ts ts₁ ts₂ : List Token} {P Q : α → Prop}
    (h₁ : Takes parser ts ts₁ P) (h₂ : Takes parser ts ts₂ Q) : ts₁ = ts₂ := by
  let c : Cursor := ⟨ts.map fun t => ⟨t, ⟨0, 0⟩⟩, 0⟩
  have hc : c.tokens = ts := by simp [c, Cursor.tokens, Function.comp_def]
  obtain ⟨a, c₁, f₁, hr₁, rfl, -⟩ := h₁ c ⟨0, []⟩ hc
  obtain ⟨b, c₂, f₂, hr₂, rfl, -⟩ := h₂ c ⟨0, []⟩ hc
  cases hr₁.symm.trans hr₂
  rfl

theorem Stops.of_prefix {more : List Token} (h : Stops table rest) (hmore : more <+: rest) :
    Stops table more := by
  cases more with
  | nil => exact stops_nil
  | cons t ts =>
    obtain ⟨tail, rfl⟩ := hmore
    exact h

/-- A longer phrase would go on with an infix operator or with an argument list. -/
theorem Phrase.longest (p : Phrase table) (hrest : Stops table rest) : p.Longest rest := by
  intro q hq
  refine Nat.le_of_not_lt fun hlt => ?_
  have hpq : p.tokens <+: q.tokens :=
    List.prefix_of_prefix_length_le (List.prefix_append _ _) hq (by omega)
  obtain ⟨more, hmore⟩ := hpq
  rw [← hmore, List.prefix_append_right_inj] at hq
  obtain ⟨p', hp, htp⟩ := p.exists_normal
  obtain ⟨q', hqn, htq⟩ := q.exists_normal
  let depth := p.tokens.length + q.tokens.length
  have h₁ := expression_takes table depth p' hp (by rw [htp]; omega) more (hrest.of_prefix hq)
  have h₂ := expression_takes table depth q' hqn (by rw [htq]; omega) [] stops_nil
  rw [htp, hmore, ← htq] at h₁
  rw [List.append_nil] at h₂
  obtain rfl := takes_unique h₁ h₂
  rw [← hmore, List.append_nil] at hlt
  exact Nat.lt_irrefl _ hlt

mutual

theorem Phrase.Normal.greedy : ∀ (p : Phrase table) {rest : List Token}, p.Normal →
    Stops table rest → p.Greedy rest
  | .last o, _, h, hrest => Operand.Normal.greedy o h hrest.1 fun _ => hrest
  | .more o _ _ tail, _, h, hrest =>
    ⟨Operand.Normal.greedy o h.1 nofun fun hc => absurd hc h.2.1,
      Phrase.Normal.greedy tail h.2.2 hrest⟩

theorem Operand.Normal.greedy : ∀ (o : Operand table) {rest : List Token}, o.Normal →
    rest.head? ≠ some .openParen → (o.Compound → Stops table rest) → o.Greedy rest
  | .core c, _, h, hparen, hc => Core.Normal.greedy c h hparen hc
  | .prefixed _ _ o, _, h, hparen, hc => Operand.Normal.greedy o h hparen hc

theorem Core.Normal.greedy : ∀ (c : Core table) {rest : List Token}, c.Normal →
    rest.head? ≠ some .openParen → (c.Compound → Stops table rest) → c.Greedy rest
  | .binding _ bound body, _, h, _, hc =>
    ⟨Phrase.Normal.greedy bound h.1 (stops_cons rfl _),
      Phrase.Normal.greedy body h.2 (hc trivial), body.longest (hc trivial)⟩
  | .function _ _ body context, _, h, _, hc =>
    ⟨Phrase.Normal.greedy body h.1 (stops_cons rfl _),
      Phrase.Normal.greedy context h.2 (hc trivial), context.longest (hc trivial)⟩
  | .conditional condition positive negative, _, h, _, hc =>
    ⟨Phrase.Normal.greedy condition h.1 (stops_cons rfl _),
      Phrase.Normal.greedy positive h.2.1 (stops_cons rfl _),
      Phrase.Normal.greedy negative h.2.2 (hc trivial), negative.longest (hc trivial)⟩
  | .number _, _, _, _, _ => trivial
  | .reference _, _, _, hparen, _ => hparen
  | .call _ args, _, h, _, _ => NormalAll.greedy args h
  | .group inner, _, h, _, _ => Phrase.Normal.greedy inner h (stops_cons rfl _)

theorem NormalAll.greedy : ∀ (ps : List (Phrase table)) {rest : List Token}, NormalAll ps →
    GreedyAll ps (.closeParen :: rest)
  | [], _, _ => trivial
  | [p], _, h => ⟨Phrase.Normal.greedy p h.1 (stops_cons rfl _), trivial⟩
  | p :: q :: ps, _, h =>
    ⟨Phrase.Normal.greedy p h.1 (stops_cons rfl _), NormalAll.greedy (q :: ps) h.2⟩

end

end Grammar

open Heightfield.Grammar Heightfield.Parser

/-- A normal derivation of the whole input is the parser's answer. -/
theorem parseTokens_of_normal {p : Phrase .standard} (hp : p.Normal) {lexemes : List Lexeme}
    (htokens : p.tokens = lexemes.map (·.token)) (source : String) :
    ∃ e, parseTokens .standard anyCore lexemes source = .ok e ∧ e.bare = p.tree := by
  have hlen : p.tokens.length ≤ lexemes.length + 1 := by
    rw [htokens, List.length_map]
    exact Nat.le_succ _
  have hread := expression_takes .standard (lexemes.length + 1) p hp hlen [] stops_nil
  have hprogram : Takes (program .standard anyCore (lexemes.length + 1)) (p.tokens ++ []) []
      (·.bare = p.tree) :=
    hread.bind fun e he => endOfInput_takes.bind fun _ _ => .pure he
  rw [List.append_nil] at hprogram
  obtain ⟨e, c, f, hr, -, he⟩ := hprogram ⟨lexemes, 0⟩ ⟨lexemes.length, []⟩ htokens.symm
  refine ⟨e, ?_, he⟩
  rw [parseTokens, hr]

theorem parseTokens_derivable {lexemes : List Lexeme} {source : String} {e : Expr}
    (h : parseTokens .standard anyCore lexemes source = .ok e) :
    ∃ p : Phrase .standard, p.tokens = lexemes.map (·.token) := by
  rw [parseTokens] at h
  cases hr : program .standard anyCore (lexemes.length + 1) ⟨lexemes, 0⟩ ⟨lexemes.length, []⟩ with
  | mk answer f =>
    cases answer with
    | none => simp [hr] at h
    | some r =>
      obtain ⟨e', c⟩ := r
      obtain ⟨_, c', f', hexpr, hrest⟩ := bind_ok hr
      obtain ⟨_, _, _, hend, -⟩ := bind_ok hrest
      obtain ⟨_, hts, p, rfl⟩ := (expression_reads .standard _).read hexpr
      rw [endOfInput_ok hend, List.append_nil] at hts
      exact ⟨p, hts.symm⟩

theorem parse_eq_ok {source : String} {e : Expr} : parse source = .ok e ↔
    ∃ lexemes, lex source = .ok lexemes ∧
      parseTokens .standard anyCore lexemes source = .ok e := by
  unfold parse
  cases lex source with
  | error error => exact ⟨nofun, nofun⟩
  | ok lexemes => exact ⟨fun h => ⟨lexemes, rfl, h⟩, fun ⟨_, rfl, h⟩ => h⟩

/-- A source is accepted just where its tokens have a derivation, and its tree is that of the greedy
one. -/
theorem parse_accepts_grammar (source : String) :
    ((∃ e, parse source = .ok e) ↔ ∃ lexemes, lex source = .ok lexemes ∧
      ∃ p : Phrase .standard, p.tokens = lexemes.map (·.token)) ∧
    ∀ t, (∃ e, parse source = .ok e ∧ e.bare = t) ↔ ∃ lexemes, lex source = .ok lexemes ∧
      ∃ p : Phrase .standard, p.tokens = lexemes.map (·.token) ∧ p.Greedy [] ∧ p.tree = t := by
  refine ⟨⟨?_, ?_⟩, fun t => ⟨?_, ?_⟩⟩
  · rintro ⟨e, h⟩
    obtain ⟨lexemes, hlex, hparse⟩ := parse_eq_ok.1 h
    exact ⟨lexemes, hlex, parseTokens_derivable hparse⟩
  · rintro ⟨lexemes, hlex, p, hp⟩
    obtain ⟨q, hq, htokens⟩ := p.exists_normal
    obtain ⟨e, he, -⟩ := parseTokens_of_normal hq (htokens.trans hp) source
    exact ⟨e, parse_eq_ok.2 ⟨lexemes, hlex, he⟩⟩
  · rintro ⟨e, h, rfl⟩
    obtain ⟨lexemes, hlex, hparse⟩ := parse_eq_ok.1 h
    obtain ⟨p, hp⟩ := parseTokens_derivable hparse
    obtain ⟨q, hq, htokens⟩ := p.exists_normal
    obtain ⟨e', he', htree⟩ := parseTokens_of_normal hq (htokens.trans hp) source
    cases hparse.symm.trans he'
    exact ⟨lexemes, hlex, q, htokens.trans hp, Phrase.Normal.greedy q hq stops_nil, htree.symm⟩
  · rintro ⟨lexemes, hlex, p, hp, hgreedy, rfl⟩
    obtain ⟨e, he, htree⟩ := parseTokens_of_normal (Phrase.Greedy.normal p hgreedy) hp source
    exact ⟨e, parse_eq_ok.2 ⟨lexemes, hlex, he⟩, htree⟩

end Heightfield
