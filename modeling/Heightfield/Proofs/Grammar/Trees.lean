import Heightfield.Proofs.Expr.Nodes
import Heightfield.Proofs.Grammar.Acceptance
import Heightfield.Proofs.Token.Spells

/-! What the nodes of a parsed tree are made of: names as they are written, numbers that are not
negative, and operators where the table has them. -/

namespace Heightfield

/-- A node such as the parser makes. -/
def Expr.WellRead : Expr → Prop
  | number value _ => ∃ k, k ≤ Binary64.infinity ∧ value = Binary64.toFloat k
  | reference name _ => (Token.ident name.name).WellFormed
  | call callee _ _ => (Token.ident callee.name).WellFormed
  | unary op fixity _ _ => fixity = .prefixed ∧
      ∃ decl, OperatorTable.standard.prefixed? op = some decl
  | binary op _ _ _ => ∃ decl, OperatorTable.standard.infixed? op = some decl
  | binding name _ _ _ => (Token.ident name.name).WellFormed
  | function name params _ _ _ => (Token.ident name.name).WellFormed ∧
      ∀ p ∈ params, (Token.ident p.name).WellFormed
  | conditional .. => True

/-- Each node of the tree is such as the parser makes. -/
def Expr.Legible (e : Expr) : Prop := ∀ node ∈ e.nodes, node.WellRead

namespace Expr

/-- Operands and operators such as the parser finds between them. -/
def Chain.Legible (rest : Chain) : Prop :=
  ∀ decl e, (decl, e) ∈ rest →
    OperatorTable.standard.infixed? decl.op = some decl ∧ e.Legible

theorem combine_legible {decl : OperatorDecl} {left right : Expr}
    (hdecl : OperatorTable.standard.infixed? decl.op = some decl) (hleft : left.Legible)
    (hright : right.Legible) : (combine decl.op left right).Legible :=
  List.forall_mem_cons.2 ⟨⟨decl, hdecl⟩, List.forall_mem_append.2 ⟨hleft, hright⟩⟩

theorem climbFrom_legible {left : Expr} {rest : Chain} (least : Nat) (hleft : left.Legible)
    (hrest : Chain.Legible rest) : (climbFrom left rest least).val.1.Legible ∧
      Chain.Legible (climbFrom left rest least).val.2 := by
  fun_induction climbFrom left rest least with
  | case1 left least => exact ⟨hleft, hrest⟩
  | case2 left least decl operand tail h right after _ hr result _ hr' ih ih' =>
    obtain ⟨hdecl, hoperand⟩ := hrest decl operand List.mem_cons_self
    have hright := ih hoperand fun d e hde => hrest d e (List.mem_cons_of_mem _ hde)
    rw [hr] at hright
    have hresult := ih' (combine_legible hdecl hleft hright.1) hright.2
    rw [hr'] at hresult
    exact hresult
  | case3 left least decl operand tail h => exact ⟨hleft, hrest⟩

end Expr

namespace Grammar

theorem climbed_legible {parts : Expr × Expr.Chain} (hfirst : parts.1.Legible)
    (hrest : Expr.Chain.Legible parts.2) : (climbed parts).Legible :=
  (Expr.climbFrom_legible 0 hfirst hrest).1

/-- The tokens are such as the lexer makes. -/
def WellFormedAll (ts : List Token) : Prop := ∀ t ∈ ts, t.WellFormed

theorem WellFormedAll.mem_commaSeparated {items : List (List Token)} {item : List Token}
    (h : WellFormedAll (commaSeparated items)) (hitem : item ∈ items) : WellFormedAll item := by
  intro t ht
  refine h t ?_
  cases items with
  | nil => cases hitem
  | cons first rest =>
    rcases List.mem_cons.1 hitem with rfl | hitem
    · exact List.mem_append_left _ ht
    · exact List.mem_append_right _
        (List.mem_flatMap.2 ⟨item, hitem, List.mem_cons_of_mem _ ht⟩)

mutual

theorem Phrase.parts_legible : ∀ p : Phrase .standard, WellFormedAll p.tokens →
    p.parts.1.Legible ∧ Expr.Chain.Legible p.parts.2
  | .last o, h => ⟨Operand.tree_legible o h, nofun⟩
  | .more o decl declared tail, h => by
    obtain ⟨ho, htail⟩ := List.forall_mem_append.1 h
    obtain ⟨hfirst, hrest⟩ := Phrase.parts_legible tail (List.forall_mem_cons.1 htail).2
    refine ⟨Operand.tree_legible o ho, fun d e hde => ?_⟩
    rcases List.mem_cons.1 hde with heq | hde
    · cases heq
      exact ⟨declared, hfirst⟩
    · exact hrest d e hde

theorem Operand.tree_legible : ∀ o : Operand .standard, WellFormedAll o.tokens → o.tree.Legible
  | .core c, h => Core.tree_legible c h
  | .prefixed decl declared o, h =>
    List.forall_mem_cons.2 ⟨⟨rfl, decl, declared⟩,
      Operand.tree_legible o (List.forall_mem_cons.1 h).2⟩

theorem Core.tree_legible : ∀ c : Core .standard, WellFormedAll c.tokens → c.tree.Legible
  | .binding name bound body, h => by
    simp only [WellFormedAll, Core.tokens, List.forall_mem_cons, List.forall_mem_append] at h
    obtain ⟨-, hname, -, hbound, -, hbody⟩ := h
    exact List.forall_mem_cons.2 ⟨hname, List.forall_mem_append.2
      ⟨Phrase.tree_legible bound hbound, Phrase.tree_legible body hbody⟩⟩
  | .function name params body context, h => by
    simp only [WellFormedAll, Core.tokens, List.forall_mem_cons, List.forall_mem_append] at h
    obtain ⟨-, hname, -, hparams, -, -, hbody, -, hcontext⟩ := h
    refine List.forall_mem_cons.2 ⟨⟨hname, fun p hp => ?_⟩, List.forall_mem_append.2
      ⟨Phrase.tree_legible body hbody, Phrase.tree_legible context hcontext⟩⟩
    obtain ⟨param, hparam, rfl⟩ := List.mem_map.1 hp
    exact WellFormedAll.mem_commaSeparated hparams (List.mem_map_of_mem hparam) _
      (List.mem_singleton_self _)
  | .conditional condition positive negative, h => by
    simp only [WellFormedAll, Core.tokens, List.forall_mem_cons, List.forall_mem_append] at h
    obtain ⟨-, hcondition, -, hpositive, -, hnegative⟩ := h
    exact List.forall_mem_cons.2 ⟨trivial, List.forall_mem_append.2
      ⟨List.forall_mem_append.2 ⟨Phrase.tree_legible condition hcondition,
        Phrase.tree_legible positive hpositive⟩, Phrase.tree_legible negative hnegative⟩⟩
  | .number digits, _ => List.forall_mem_singleton.2 ⟨_, Nat.min_le_right _ _, rfl⟩
  | .reference name, h => List.forall_mem_singleton.2 (h (.ident name) List.mem_cons_self)
  | .call name args, h => by
    simp only [WellFormedAll, Core.tokens, List.forall_mem_cons, List.forall_mem_append] at h
    obtain ⟨hname, -, hargs, -⟩ := h
    exact List.forall_mem_cons.2 ⟨hname, treesAll_legible args fun _ hitem =>
      WellFormedAll.mem_commaSeparated hargs hitem⟩
  | .group inner, h => by
    simp only [WellFormedAll, Core.tokens, List.forall_mem_cons, List.forall_mem_append] at h
    exact Phrase.tree_legible inner h.2.1

theorem Phrase.tree_legible (p : Phrase .standard) (h : WellFormedAll p.tokens) :
    p.tree.Legible := by
  obtain ⟨hfirst, hrest⟩ := Phrase.parts_legible p h
  exact climbed_legible hfirst hrest

theorem treesAll_legible : ∀ ps : List (Phrase .standard),
    (∀ item ∈ tokensAll ps, WellFormedAll item) →
      ∀ node ∈ Expr.nodesAll (treesAll ps), node.WellRead
  | [], _ => nofun
  | p :: ps, h => by
    obtain ⟨hp, hps⟩ := List.forall_mem_cons.1 h
    exact List.forall_mem_append.2 ⟨Phrase.tree_legible p hp, treesAll_legible ps hps⟩

end

end Grammar

namespace Expr

mutual

theorem nodes_bare : ∀ e : Expr, e.bare.nodes = e.nodes.map bare
  | number _ _ | reference _ _ => rfl
  | call _ args _ => by
    rw [bare, nodes, nodes, List.map_cons, nodesAll_bare args, bare]
  | unary _ _ operand _ => by
    rw [bare, nodes, nodes, List.map_cons, nodes_bare operand, bare]
  | binary _ left right _ => by
    rw [bare, nodes, nodes, List.map_cons, List.map_append, nodes_bare left, nodes_bare right, bare]
  | binding _ bound body _ => by
    rw [bare, nodes, nodes, List.map_cons, List.map_append, nodes_bare bound, nodes_bare body, bare]
  | function _ _ body context _ => by
    rw [bare, nodes, nodes, List.map_cons, List.map_append, nodes_bare body, nodes_bare context,
      bare]
  | conditional condition positive negative _ => by
    rw [bare, nodes, nodes, List.map_cons, List.map_append, List.map_append, nodes_bare condition,
      nodes_bare positive, nodes_bare negative, bare]

theorem nodesAll_bare : ∀ es : List Expr, nodesAll (bareAll es) = (nodesAll es).map bare
  | [] => rfl
  | e :: es => by
    rw [bareAll, nodesAll, nodesAll, List.map_append, nodes_bare e, nodesAll_bare es]

end

theorem wellRead_of_bare {e : Expr} (h : e.bare.WellRead) : e.WellRead := by
  cases e with
  | function name params body context s =>
    exact ⟨h.1, fun p hp => h.2 (.bare p.name) (List.mem_map.2 ⟨p, hp, rfl⟩)⟩
  | _ => exact h

theorem legible_of_bare {e : Expr} (h : e.bare.Legible) : e.Legible := by
  intro node hnode
  refine wellRead_of_bare (h node.bare ?_)
  rw [nodes_bare]
  exact List.mem_map_of_mem hnode

end Expr

open Grammar

/-- A tree that is parsed is that of a normal derivation of its source's tokens. -/
theorem parse_derived {source : String} {e : Expr} (h : parse source = .ok e) :
    ∃ lexemes, lex source = .ok lexemes ∧ ∃ p : Phrase .standard, p.Normal ∧
      p.tokens = lexemes.map (·.token) ∧ e.bare = p.tree := by
  obtain ⟨lexemes, hlex, hparse⟩ := parse_eq_ok.1 h
  obtain ⟨p, hp⟩ := parseTokens_derivable hparse
  obtain ⟨q, hq, htokens⟩ := p.exists_normal
  obtain ⟨e', he', htree⟩ := parseTokens_of_normal hq (htokens.trans hp) source
  cases hparse.symm.trans he'
  exact ⟨lexemes, hlex, q, hq, htokens.trans hp, htree⟩

theorem parse_legible {source : String} {e : Expr} (h : parse source = .ok e) : e.Legible := by
  obtain ⟨lexemes, hlex, p, -, htokens, htree⟩ := parse_derived h
  refine Expr.legible_of_bare (htree ▸ Phrase.tree_legible p fun t ht => ?_)
  rw [htokens] at ht
  obtain ⟨l, hl, rfl⟩ := List.mem_map.1 ht
  exact lex_wellFormed hlex l hl

end Heightfield
