import Heightfield.Proofs.Expr.Text

/-! A parsed tree's canonical text parses again. The tree comes back unless an operator was written
behind a compound form in parentheses, which leave no trace and are not written again, so that the
form's last part takes the operator; or unless a number was too great to be finite, and so is
written with a name. -/

namespace Heightfield

open Grammar

/-- The forms that end in an expression. -/
def Expr.Compound : Expr → Prop
  | .binding .. | .function .. | .conditional .. => True
  | _ => False

/-- A node that is read again as it was. -/
def Expr.Kept : Expr → Prop
  | .number value _ => value.isInf = false
  | .binary _ left _ _ => ¬ left.Compound
  | _ => True

namespace Grammar

variable {table : OperatorTable}

/-- A core alone. -/
def Core.alone (c : Core table) : Phrase table := .last (.core c)

@[simp] theorem Core.alone_tokens (c : Core table) : c.alone.tokens = c.tokens := rfl

theorem climbFrom_nil (e : Expr) (least : Nat) : (Expr.climbFrom e [] least).val = (e, []) := by
  rw [Expr.climbFrom]

@[simp] theorem climbed_last (o : Operand table) : climbed (Phrase.last o).parts = o.tree := by
  rw [Phrase.parts, climbed, Expr.climb, climbFrom_nil]

@[simp] theorem Core.climbed_alone (c : Core table) : climbed c.alone.parts = c.tree :=
  climbed_last _

theorem climbed_pair (left right : Operand table) {decl : OperatorDecl}
    (declared : table.infixed? decl.op = some decl) :
    climbed (Phrase.more left decl declared (.last right)).parts =
      Expr.combine decl.op left.tree right.tree := by
  rw [Phrase.parts, Phrase.parts, climbed, Expr.climb, Expr.climbFrom_admitted (Nat.zero_le _)]
  rw [climbFrom_nil, climbFrom_nil]

theorem combine_eq_bare {op : Op} {l r left right : Expr} {s : Span} :
    Expr.combine op l r = (Expr.binary op left right s).bare ↔
      l = left.bare ∧ r = right.bare := by
  refine ⟨fun h => ?_, ?_⟩
  · injection h with _ hl hr
    exact ⟨hl, hr⟩
  · rintro ⟨rfl, rfl⟩
    rw [Expr.combine, Expr.bare_span, Expr.bare_span]
    rfl

/-- A compound form is told by its first token. -/
theorem Core.compound_of_tokens {c l : Core table} {more : List Token}
    (h : c.tokens = l.tokens ++ more) (hl : l.Compound) : c.Compound := by
  cases l with
  | binding | function | conditional =>
    cases c with
    | binding | function | conditional => trivial
    | _ => cases h
  | _ => cases hl

theorem Core.tree_ne_binary {c : Core table} (h : c.Compound) {op : Op} {left right : Expr}
    {s : Span} : c.tree ≠ (Expr.binary op left right s).bare := by
  cases c with
  | binding | function | conditional => nofun
  | _ => cases h

/-- A derivation of the canonical text of `e`. -/
structure Core.Renders (c : Core .standard) (e : Expr) : Prop where
  normal : c.Normal
  tokens : c.tokens = e.tokens
  compound : c.Compound ↔ e.Compound
  tree : c.tree = e.bare ↔ ∀ node ∈ e.nodes, node.Kept

theorem number_rendered {k : Nat} (h : k ≤ Binary64.infinity) (s : Span) :
    ∃ c : Core .standard, c.Renders (.number (Binary64.toFloat k) s) := by
  have hinf := Binary64.isInf_toFloat h
  rcases Nat.lt_or_eq_of_le h with hlt | rfl
  · have hfinite : (Binary64.toFloat k).isInf = false := by
      rw [hinf, decide_eq_false (Nat.ne_of_lt hlt)]
    refine ⟨.number (Notation.plain (Binary64.toFloat k)), trivial, ?_, Iff.rfl, ?_⟩
    · rw [Expr.tokens, hfinite]
      rfl
    · rw [Core.tree, Notation.toFloat_ofChars_plain hlt]
      exact ⟨fun _ => List.forall_mem_singleton.2 hfinite, fun _ => rfl⟩
  · rw [decide_eq_true rfl] at hinf
    refine ⟨.reference "inf", trivial, ?_, Iff.rfl, ?_⟩
    · rw [Expr.tokens, hinf]
      rfl
    · refine ⟨nofun, fun hkept => ?_⟩
      have hnot : (Binary64.toFloat Binary64.infinity).isInf = false :=
        hkept _ (List.mem_singleton_self _)
      rw [hinf] at hnot
      cases hnot

mutual

theorem exists_rendering : ∀ e : Expr, e.Legible → ∃ c : Core .standard, c.Renders e
  | .number value s, h => by
    obtain ⟨k, hk, rfl⟩ := List.forall_mem_singleton.1 h
    exact number_rendered hk s
  | .reference name s, _ =>
    ⟨.reference name.name, trivial, rfl, Iff.rfl, fun _ => List.forall_mem_singleton.2 trivial,
      fun _ => rfl⟩
  | .call callee args s, h => by
    obtain ⟨-, hargs⟩ := List.forall_mem_cons.1 h
    obtain ⟨ps, hnormal, htokens, htrees⟩ := exists_renderings args hargs
    refine ⟨.call callee.name ps, hnormal, ?_, Iff.rfl, ?_⟩
    · rw [Expr.tokens, ← htokens, Core.tokens]
    · simp [Core.tree, Expr.bare, Expr.nodes, Expr.Kept, htrees]
  | .unary op fixity operand s, h => by
    obtain ⟨⟨rfl, decl, hdecl⟩, hoperand⟩ := List.forall_mem_cons.1 h
    obtain ⟨c, hc⟩ := exists_rendering operand hoperand
    obtain rfl := OperatorTable.op_of_prefixed? hdecl
    refine ⟨.group (.last (.prefixed decl hdecl (.core c))), hc.normal, ?_, Iff.rfl, ?_⟩
    · rw [Expr.tokens, ← hc.tokens]
      rfl
    · simp [Core.tree, Operand.tree, Expr.bare, Expr.nodes, Expr.Kept, hc.tree]
  | .binary op left right s, h => by
    obtain ⟨⟨decl, hdecl⟩, hsides⟩ := List.forall_mem_cons.1 h
    obtain ⟨hleft, hright⟩ := List.forall_mem_append.1 hsides
    obtain ⟨l, hl⟩ := exists_rendering left hleft
    obtain ⟨r, hr⟩ := exists_rendering right hright
    obtain rfl := OperatorTable.op_of_infixed? hdecl
    by_cases hcompound : l.Compound
    -- The form takes the operator into its last part: the tokens are those of another form.
    · have hnormal : r.alone.Normal := hr.normal
      obtain ⟨c, hc, htokens⟩ := Core.absorb_normal hdecl hnormal l hl.normal hcompound
      refine ⟨.group c.alone, hc, ?_, Iff.rfl, fun h => ?_, fun hkept => ?_⟩
      · rw [Expr.tokens, ← hl.tokens, ← hr.tokens, Core.tokens, Core.alone_tokens, htokens]
        simp
      · rw [Core.tree, Core.climbed_alone] at h
        exact absurd h (Core.tree_ne_binary (Core.compound_of_tokens htokens hcompound))
      · have hnot : ¬ left.Compound := hkept _ List.mem_cons_self
        exact absurd (hl.compound.1 hcompound) hnot
    · refine ⟨.group (.more (.core l) decl hdecl r.alone), ⟨hl.normal, hcompound, hr.normal⟩, ?_,
        Iff.rfl, ?_⟩
      · rw [Expr.tokens, ← hl.tokens, ← hr.tokens]
        simp [Core.tokens, Phrase.tokens, Operand.tokens]
      · rw [Core.tree, Core.alone, climbed_pair, combine_eq_bare]
        rw [hl.compound] at hcompound
        simp [Operand.tree, Expr.nodes, Expr.Kept, hl.tree, hr.tree, hcompound, or_imp,
          forall_and]
  | .binding name bound body s, h => by
    obtain ⟨-, hparts⟩ := List.forall_mem_cons.1 h
    obtain ⟨hbound, hbody⟩ := List.forall_mem_append.1 hparts
    obtain ⟨b, hb⟩ := exists_rendering bound hbound
    obtain ⟨c, hc⟩ := exists_rendering body hbody
    refine ⟨.binding name.name b.alone c.alone, ⟨hb.normal, hc.normal⟩, ?_, Iff.rfl, ?_⟩
    · rw [Expr.tokens, ← hb.tokens, ← hc.tokens]
      rfl
    · simp [Core.tree, Expr.bare, Expr.nodes, Expr.Kept, hb.tree, hc.tree, or_imp, forall_and]
  | .function name params body context s, h => by
    obtain ⟨-, hparts⟩ := List.forall_mem_cons.1 h
    obtain ⟨hbody, hcontext⟩ := List.forall_mem_append.1 hparts
    obtain ⟨b, hb⟩ := exists_rendering body hbody
    obtain ⟨c, hc⟩ := exists_rendering context hcontext
    refine ⟨.function name.name (params.map (·.name)) b.alone c.alone, ⟨hb.normal, hc.normal⟩, ?_,
      Iff.rfl, ?_⟩
    · rw [Expr.tokens, ← hb.tokens, ← hc.tokens, Core.tokens, List.map_map]
      rfl
    · simp [Core.tree, Expr.bare, Expr.nodes, Expr.Kept, hb.tree, hc.tree, or_imp, forall_and]
  | .conditional condition positive negative s, h => by
    obtain ⟨-, hparts⟩ := List.forall_mem_cons.1 h
    obtain ⟨hparts, hnegative⟩ := List.forall_mem_append.1 hparts
    obtain ⟨hcondition, hpositive⟩ := List.forall_mem_append.1 hparts
    obtain ⟨c, hc⟩ := exists_rendering condition hcondition
    obtain ⟨p, hp⟩ := exists_rendering positive hpositive
    obtain ⟨n, hn⟩ := exists_rendering negative hnegative
    refine ⟨.conditional c.alone p.alone n.alone, ⟨hc.normal, hp.normal, hn.normal⟩, ?_, Iff.rfl,
      ?_⟩
    · rw [Expr.tokens, ← hc.tokens, ← hp.tokens, ← hn.tokens]
      rfl
    · simp [Core.tree, Expr.bare, Expr.nodes, Expr.Kept, hc.tree, hp.tree, hn.tree, or_imp,
        forall_and]

theorem exists_renderings : ∀ es : List Expr, (∀ node ∈ Expr.nodesAll es, node.WellRead) →
    ∃ ps : List (Phrase .standard), NormalAll ps ∧ tokensAll ps = Expr.tokensAll es ∧
      (treesAll ps = Expr.bareAll es ↔ ∀ node ∈ Expr.nodesAll es, node.Kept)
  | [], _ => ⟨[], trivial, rfl, fun _ => nofun, fun _ => rfl⟩
  | e :: es, h => by
    obtain ⟨he, hes⟩ := List.forall_mem_append.1 h
    obtain ⟨c, hc⟩ := exists_rendering e he
    obtain ⟨ps, hnormal, htokens, htrees⟩ := exists_renderings es hes
    refine ⟨c.alone :: ps, ⟨hc.normal, hnormal⟩, ?_, ?_⟩
    · rw [tokensAll, Expr.tokensAll, ← htokens, ← hc.tokens]
      rfl
    · simp [treesAll, Expr.bareAll, Expr.nodesAll, hc.tree, htrees, or_imp, forall_and]

end

end Grammar

theorem Expr.kept_iff {e : Expr} : (∀ node ∈ e.nodes, node.Kept) ↔
    (∀ op left right s, .binary op left right s ∈ e.nodes → ¬ left.Compound) ∧
      ∀ value s, .number value s ∈ e.nodes → value.isInf = false := by
  refine ⟨fun h => ⟨fun op left right s hnode => h _ hnode, fun value s hnode => h _ hnode⟩, ?_⟩
  rintro ⟨hbinary, hnumber⟩ node hnode
  cases node with
  | number value s => exact hnumber value s hnode
  | binary op left right s => exact hbinary op left right s hnode
  | _ => trivial

/-- The canonical text of a parsed tree parses. The tree is the same, but for spans, exactly if no
operator has a compound form on its left, and no number is infinite. -/
theorem parse_text {source : String} {e : Expr} (h : parse source = .ok e) :
    ∃ e', parse e.text = .ok e' ∧ (e'.bare = e.bare ↔
      (∀ op left right s, .binary op left right s ∈ e.nodes → ¬ left.Compound) ∧
        ∀ value s, .number value s ∈ e.nodes → value.isInf = false) := by
  have hlegible := parse_legible h
  obtain ⟨lexemes, hlex, htokens⟩ := Expr.lex_text hlegible
  obtain ⟨c, hc⟩ := exists_rendering e hlegible
  have hnormal : c.alone.Normal := hc.normal
  obtain ⟨e', hparse, htree⟩ := parseTokens_of_normal hnormal
    (hc.tokens.trans htokens.symm) e.text
  refine ⟨e', parse_eq_ok.2 ⟨lexemes, hlex, hparse⟩, ?_⟩
  rw [htree, ← Expr.kept_iff, ← hc.tree, Phrase.tree, Core.climbed_alone]

/-- The operator is read into the last part of the form before it. -/
theorem boundLeft_text_parses : ∃ e e', parse "(let a = b in a) + c" = .ok e ∧
    parse e.text = .ok e' ∧ e'.bare ≠ e.bare := by
  let form : Expr := .binding ⟨"a", ⟨5, 6⟩⟩ (.reference ⟨"b", ⟨9, 10⟩⟩ ⟨9, 10⟩)
    (.reference ⟨"a", ⟨14, 15⟩⟩ ⟨14, 15⟩) ⟨1, 15⟩
  let e : Expr := .binary .add form (.reference ⟨"c", ⟨19, 20⟩⟩ ⟨19, 20⟩) ⟨1, 20⟩
  have hparse : parse "(let a = b in a) + c" = .ok e := by cbv
  obtain ⟨e', hparse', hsame⟩ := parse_text hparse
  refine ⟨e, e', hparse, hparse', fun h => ?_⟩
  exact (hsame.1 h).1 .add form _ _ List.mem_cons_self trivial

end Heightfield
