import Heightfield.Proofs.Grammar

/-! A phrase is normal where only the last of its operands is a compound form, inside its parts too.
Every phrase has the tokens of a normal one: what follows a compound form goes into the form's last
part. -/

namespace Heightfield.Grammar

variable {table : OperatorTable}

def Core.Compound : Core table → Prop
  | .binding .. | .function .. | .conditional .. => True
  | _ => False

def Operand.Compound : Operand table → Prop
  | .core c => c.Compound
  | .prefixed _ _ o => o.Compound

mutual

def Phrase.Normal : Phrase table → Prop
  | .last o => o.Normal
  | .more o _ _ tail => o.Normal ∧ ¬ o.Compound ∧ tail.Normal

def Operand.Normal : Operand table → Prop
  | .core c => c.Normal
  | .prefixed _ _ o => o.Normal

def Core.Normal : Core table → Prop
  | .binding _ bound body => bound.Normal ∧ body.Normal
  | .function _ _ body context => body.Normal ∧ context.Normal
  | .conditional condition positive negative =>
    condition.Normal ∧ positive.Normal ∧ negative.Normal
  | .number _ | .reference _ => True
  | .call _ args => NormalAll args
  | .group inner => inner.Normal

def NormalAll : List (Phrase table) → Prop
  | [] => True
  | p :: ps => p.Normal ∧ NormalAll ps

end

section Absorbing

variable {decl : OperatorDecl} {tail : Phrase table}

mutual

/-- A normal phrase and another behind an operator make up a normal phrase. -/
theorem Phrase.append_normal (declared : table.infixed? decl.op = some decl) (htail : tail.Normal) :
    ∀ p : Phrase table, p.Normal →
      ∃ q : Phrase table, q.Normal ∧ q.tokens = p.tokens ++ .operator decl.op :: tail.tokens
  | .last o, hp => by
    by_cases ho : o.Compound
    · obtain ⟨o', hn, ht⟩ := Operand.absorb_normal declared htail o hp ho
      exact ⟨.last o', hn, ht⟩
    · exact ⟨.more o decl declared tail, ⟨hp, ho, htail⟩, rfl⟩
  | .more o d h t, ⟨ho, hc, ht⟩ => by
    obtain ⟨q, hq, htokens⟩ := Phrase.append_normal declared htail t ht
    refine ⟨.more o d h q, ⟨ho, hc, hq⟩, ?_⟩
    rw [Phrase.tokens, Phrase.tokens, htokens, List.append_assoc, List.cons_append]

theorem Operand.absorb_normal (declared : table.infixed? decl.op = some decl)
    (htail : tail.Normal) : ∀ o : Operand table, o.Normal → o.Compound →
      ∃ o' : Operand table, o'.Normal ∧ o'.tokens = o.tokens ++ .operator decl.op :: tail.tokens
  | .core c, ho, hc => by
    obtain ⟨c', hn, ht⟩ := Core.absorb_normal declared htail c ho hc
    exact ⟨.core c', hn, ht⟩
  | .prefixed d h o, ho, hc => by
    obtain ⟨o', hn, ht⟩ := Operand.absorb_normal declared htail o ho hc
    refine ⟨.prefixed d h o', hn, ?_⟩
    rw [Operand.tokens, Operand.tokens, ht, List.cons_append]

theorem Core.absorb_normal (declared : table.infixed? decl.op = some decl) (htail : tail.Normal) :
    ∀ c : Core table, c.Normal → c.Compound →
      ∃ c' : Core table, c'.Normal ∧ c'.tokens = c.tokens ++ .operator decl.op :: tail.tokens
  | .binding name bound body, ⟨hbound, hbody⟩, _ => by
    obtain ⟨q, hq, ht⟩ := Phrase.append_normal declared htail body hbody
    exact ⟨.binding name bound q, ⟨hbound, hq⟩, by simp [Core.tokens, ht]⟩
  | .function name params body context, ⟨hbody, hcontext⟩, _ => by
    obtain ⟨q, hq, ht⟩ := Phrase.append_normal declared htail context hcontext
    exact ⟨.function name params body q, ⟨hbody, hq⟩, by simp [Core.tokens, ht]⟩
  | .conditional condition positive negative, ⟨hc, hp, hn⟩, _ => by
    obtain ⟨q, hq, ht⟩ := Phrase.append_normal declared htail negative hn
    exact ⟨.conditional condition positive q, ⟨hc, hp, hq⟩, by simp [Core.tokens, ht]⟩

end

end Absorbing

mutual

theorem Phrase.exists_normal : ∀ p : Phrase table, ∃ q : Phrase table,
    q.Normal ∧ q.tokens = p.tokens
  | .last o => by
    obtain ⟨o', hn, ht⟩ := Operand.exists_normal o
    exact ⟨.last o', hn, ht⟩
  | .more o decl declared tail => by
    obtain ⟨o', ho, hto⟩ := Operand.exists_normal o
    obtain ⟨tail', htail, htt⟩ := Phrase.exists_normal tail
    obtain ⟨q, hq, ht⟩ := Phrase.append_normal declared htail (.last o') ho
    refine ⟨q, hq, ?_⟩
    rw [ht, Phrase.tokens, Phrase.tokens, hto, htt]

theorem Operand.exists_normal : ∀ o : Operand table, ∃ o' : Operand table,
    o'.Normal ∧ o'.tokens = o.tokens
  | .core c => by
    obtain ⟨c', hn, ht⟩ := Core.exists_normal c
    exact ⟨.core c', hn, ht⟩
  | .prefixed decl declared o => by
    obtain ⟨o', hn, ht⟩ := Operand.exists_normal o
    exact ⟨.prefixed decl declared o', hn, by rw [Operand.tokens, Operand.tokens, ht]⟩

theorem Core.exists_normal : ∀ c : Core table, ∃ c' : Core table,
    c'.Normal ∧ c'.tokens = c.tokens
  | .binding name bound body => by
    obtain ⟨bound', hb, htb⟩ := Phrase.exists_normal bound
    obtain ⟨body', hn, ht⟩ := Phrase.exists_normal body
    exact ⟨.binding name bound' body', ⟨hb, hn⟩, by simp [Core.tokens, htb, ht]⟩
  | .function name params body context => by
    obtain ⟨body', hb, htb⟩ := Phrase.exists_normal body
    obtain ⟨context', hn, ht⟩ := Phrase.exists_normal context
    exact ⟨.function name params body' context', ⟨hb, hn⟩, by simp [Core.tokens, htb, ht]⟩
  | .conditional condition positive negative => by
    obtain ⟨condition', hc, htc⟩ := Phrase.exists_normal condition
    obtain ⟨positive', hp, htp⟩ := Phrase.exists_normal positive
    obtain ⟨negative', hn, htn⟩ := Phrase.exists_normal negative
    exact ⟨.conditional condition' positive' negative', ⟨hc, hp, hn⟩,
      by simp [Core.tokens, htc, htp, htn]⟩
  | .number digits => ⟨.number digits, trivial, rfl⟩
  | .reference name => ⟨.reference name, trivial, rfl⟩
  | .call name args => by
    obtain ⟨args', hn, ht⟩ := exists_normalAll args
    exact ⟨.call name args', hn, by simp [Core.tokens, ht]⟩
  | .group inner => by
    obtain ⟨inner', hn, ht⟩ := Phrase.exists_normal inner
    exact ⟨.group inner', hn, by simp [Core.tokens, ht]⟩

theorem exists_normalAll : ∀ ps : List (Phrase table), ∃ qs : List (Phrase table),
    NormalAll qs ∧ tokensAll qs = tokensAll ps
  | [] => ⟨[], trivial, rfl⟩
  | p :: ps => by
    obtain ⟨q, hq, ht⟩ := Phrase.exists_normal p
    obtain ⟨qs, hqs, hts⟩ := exists_normalAll ps
    exact ⟨q :: qs, ⟨hq, hqs⟩, by rw [tokensAll, tokensAll, ht, hts]⟩

end

section Greedy

/-- One phrase behind another, with an operator between. -/
def Phrase.append : Phrase table → (decl : OperatorDecl) →
    table.infixed? decl.op = some decl → Phrase table → Phrase table
  | .last o, decl, declared, tail => .more o decl declared tail
  | .more o d h t, decl, declared, tail => .more o d h (t.append decl declared tail)

theorem Phrase.append_tokens {decl : OperatorDecl} (declared : table.infixed? decl.op = some decl)
    (tail : Phrase table) : ∀ p : Phrase table,
      (p.append decl declared tail).tokens = p.tokens ++ .operator decl.op :: tail.tokens
  | .last _ => rfl
  | .more o d h t => by
    rw [Phrase.append, Phrase.tokens, Phrase.tokens, Phrase.append_tokens declared tail t,
      List.append_assoc, List.cons_append]

variable {decl : OperatorDecl} {rest : List Token}

/-- An infix operator and an operand after it would go into the phrase. -/
theorem Phrase.not_longest (declared : table.infixed? decl.op = some decl) (tail p : Phrase table) :
    ¬ p.Longest (.operator decl.op :: (tail.tokens ++ rest)) := by
  intro h
  have ht := Phrase.append_tokens declared tail p
  have hle := h (p.append decl declared tail) ⟨rest, by rw [ht]; simp⟩
  rw [ht, List.length_append, List.length_cons] at hle
  omega

theorem Core.not_greedy_of_compound (declared : table.infixed? decl.op = some decl)
    (tail : Phrase table) {c : Core table} (hc : c.Compound) :
    ¬ c.Greedy (.operator decl.op :: (tail.tokens ++ rest)) := by
  intro h
  cases c with
  | binding name bound body => exact Phrase.not_longest declared tail body h.2.2
  | function name params body context => exact Phrase.not_longest declared tail context h.2.2
  | conditional condition positive negative =>
    exact Phrase.not_longest declared tail negative h.2.2.2
  | _ => exact hc

theorem Operand.not_greedy_of_compound (declared : table.infixed? decl.op = some decl)
    (tail : Phrase table) : ∀ o : Operand table, o.Compound →
      ¬ o.Greedy (.operator decl.op :: (tail.tokens ++ rest))
  | .core _, hc => Core.not_greedy_of_compound declared tail hc
  | .prefixed _ _ o, hc => Operand.not_greedy_of_compound declared tail o hc

end Greedy

mutual

theorem Phrase.Greedy.normal : ∀ (p : Phrase table) {rest : List Token}, p.Greedy rest → p.Normal
  | .last o, _, h => Operand.Greedy.normal o h
  | .more o _ declared tail, _, ⟨h, ht⟩ =>
    ⟨Operand.Greedy.normal o h, fun hc => Operand.not_greedy_of_compound declared tail o hc h,
      Phrase.Greedy.normal tail ht⟩

theorem Operand.Greedy.normal : ∀ (o : Operand table) {rest : List Token},
    o.Greedy rest → o.Normal
  | .core c, _, h => Core.Greedy.normal c h
  | .prefixed _ _ o, _, h => Operand.Greedy.normal o h

theorem Core.Greedy.normal : ∀ (c : Core table) {rest : List Token}, c.Greedy rest → c.Normal
  | .binding _ bound body, _, h =>
    ⟨Phrase.Greedy.normal bound h.1, Phrase.Greedy.normal body h.2.1⟩
  | .function _ _ body context, _, h =>
    ⟨Phrase.Greedy.normal body h.1, Phrase.Greedy.normal context h.2.1⟩
  | .conditional condition positive negative, _, h =>
    ⟨Phrase.Greedy.normal condition h.1, Phrase.Greedy.normal positive h.2.1,
      Phrase.Greedy.normal negative h.2.2.1⟩
  | .number _, _, _ | .reference _, _, _ => trivial
  | .call _ args, _, h => GreedyAll.normal args h
  | .group inner, _, h => Phrase.Greedy.normal inner h

theorem GreedyAll.normal : ∀ (ps : List (Phrase table)) {rest : List Token},
    GreedyAll ps rest → NormalAll ps
  | [], _, _ => trivial
  | p :: ps, _, h => ⟨Phrase.Greedy.normal p h.1, GreedyAll.normal ps h.2⟩

end

end Heightfield.Grammar
