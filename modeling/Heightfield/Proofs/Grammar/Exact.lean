import Heightfield.Proofs.Grammar.Normal
import Heightfield.Proofs.Grammar.Reading

/-! Where nothing follows that could go on with it, a normal phrase is read to its end and the
answer is its tree. -/

namespace Heightfield

namespace Grammar

variable {table : OperatorTable}

/-- Nothing that goes on with a phrase: no infix operator, and no argument list. -/
def Stops (table : OperatorTable) (ts : List Token) : Prop :=
  ts.head? ≠ some .openParen ∧
    ∀ op, ts.head? = some (.operator op) → table.infixed? op = none

/-- The tokens that end a part of a form. -/
def closes : Token → Bool
  | .keyword _ | .closeParen | .comma => true
  | _ => false

theorem stops_cons {t : Token} (h : closes t = true) (ts : List Token) : Stops table (t :: ts) := by
  refine ⟨fun ht => ?_, fun op ht => ?_⟩ <;> cases ht <;> cases h

theorem stops_nil : Stops table [] := ⟨nofun, nofun⟩

theorem Core.tokens_head (c : Core table) :
    ∃ t ts, c.tokens = t :: ts ∧ ∀ op, t ≠ .operator op := by
  cases c <;> exact ⟨_, _, rfl, fun _ => by simp⟩

theorem Operand.tokens_pos (o : Operand table) : 0 < o.tokens.length := by
  cases o with
  | core c =>
    obtain ⟨t, ts, h, -⟩ := c.tokens_head
    rw [Operand.tokens, h]
    exact Nat.succ_pos _
  | prefixed => exact Nat.succ_pos _

theorem Phrase.tokens_pos (p : Phrase table) : 0 < p.tokens.length := by
  cases p with
  | last o => exact o.tokens_pos
  | more o decl declared tail =>
    rw [Phrase.tokens, List.length_append]
    exact Nat.add_pos_left o.tokens_pos _

/-- The core under the prefix operators. -/
def Operand.base : Operand table → Core table
  | .core c => c
  | .prefixed _ _ o => o.base

/-- Puts the prefix operators before another tree. -/
def Operand.wrap : Operand table → Expr → Expr
  | .core _, e => e
  | .prefixed decl _ o, e => .unary decl.op .prefixed (o.wrap e) ⟨0, 0⟩

theorem Operand.wrap_base (o : Operand table) : o.wrap o.base.tree = o.tree := by
  cases o with
  | core c => rfl
  | prefixed decl declared o => rw [Operand.wrap, Operand.base, Operand.wrap_base o, Operand.tree]

theorem Operand.base_normal : ∀ {o : Operand table}, o.Normal → o.base.Normal
  | .core _, h => h
  | .prefixed _ _ o, h => Operand.base_normal (o := o) h

theorem Operand.base_compound : ∀ {o : Operand table}, o.base.Compound → o.Compound
  | .core _, h => h
  | .prefixed _ _ o, h => Operand.base_compound (o := o) h

theorem Operand.base_length (o : Operand table) : o.base.tokens.length ≤ o.tokens.length := by
  cases o with
  | core c => exact Nat.le_refl _
  | prefixed decl declared o => exact Nat.le_succ_of_le (Operand.base_length o)

def Phrase.first : Phrase table → Operand table
  | .last o => o
  | .more o _ _ _ => o

/-- The tokens from the first infix operator on. -/
def Phrase.others : Phrase table → List Token
  | .last _ => []
  | .more _ decl _ tail => .operator decl.op :: tail.tokens

theorem Phrase.tokens_eq (p : Phrase table) : p.tokens = p.first.tokens ++ p.others := by
  cases p with
  | last o => exact (List.append_nil _).symm
  | more o decl declared tail => rfl

theorem Phrase.first_normal {p : Phrase table} (h : p.Normal) : p.first.Normal := by
  cases p with
  | last o => exact h
  | more o decl declared tail => exact h.1

/-- What follows the first operand begins no argument list, and after a compound form nothing goes
on with the phrase. -/
theorem Phrase.first_stops {p : Phrase table} {rest : List Token} (h : p.Normal)
    (hrest : Stops table rest) : (p.others ++ rest).head? ≠ some .openParen ∧
      (p.first.Compound → Stops table (p.others ++ rest)) := by
  cases p with
  | last o => exact ⟨hrest.1, fun _ => hrest⟩
  | more o decl declared tail => exact ⟨nofun, fun hc => absurd hc h.2.1⟩

theorem NormalAll.mem {p : Phrase table} : ∀ {ps : List (Phrase table)},
    NormalAll ps → p ∈ ps → p.Normal
  | _ :: _, h, .head _ => h.1
  | _ :: _, h, .tail _ hp => NormalAll.mem h.2 hp

theorem length_le_commaSeparated {items : List (List Token)} {item : List Token}
    (h : item ∈ items) : item.length ≤ (commaSeparated items).length := by
  cases items with
  | nil => cases h
  | cons first rest =>
    rw [commaSeparated, List.length_append]
    rcases List.mem_cons.1 h with rfl | h
    · omega
    · have hsub : (.comma :: item : List Token).Sublist (behindCommas rest) := by
        rw [behindCommas, List.flatMap_def]
        exact List.sublist_flatten_of_mem (List.mem_map_of_mem h)
      have hle := hsub.length_le
      rw [List.length_cons] at hle
      omega

end Grammar

namespace Parser

open Grammar

section Separated

variable {α β δ : Type} {p : Parser α} {tokens : β → List Token} {g : α → δ} {h : β → δ}
  {rest : List Token}

theorem behindCommas_append (items : List (List Token)) (rest : List Token) :
    behindCommas items ++ rest = rest ∨ (behindCommas items ++ rest).head? = some .comma := by
  cases items with
  | nil => exact .inl rfl
  | cons => exact .inr rfl

theorem many_takes (hrest : rest.head? ≠ some .comma) (items : List β)
    (hitem : ∀ b ∈ items, ∀ ts, ts = rest ∨ ts.head? = some .comma →
      Takes p (tokens b ++ ts) ts (g · = h b)) :
    Takes (many (do let _ ← fixed .comma; p)) (behindCommas (items.map tokens) ++ rest) rest
      (·.map g = items.map h) := by
  induction items with
  | nil =>
    refine (many_stops (Refuses.bind (fixed_refuses hrest))).imp fun as has => ?_
    rw [has]
    rfl
  | cons b bs ih =>
    rw [List.map_cons, behindCommas, List.flatMap_cons, List.append_assoc, ← behindCommas]
    have hb := hitem b List.mem_cons_self _ (behindCommas_append (bs.map tokens) rest)
    have hbs := ih fun b' hb' => hitem b' (List.mem_cons_of_mem b hb')
    refine (many_steps ((fixed_takes _ _).bind fun _ _ => hb) ?_ hbs).imp ?_
    · simp only [List.length_cons, List.length_append]
      omega
    · rintro _ ⟨a, as, rfl, ha, has⟩
      rw [List.map_cons, List.map_cons, ha, has]

/-- Items with commas between, and after them what is no comma and begins no item. -/
theorem separated_takes (hrest : rest.head? ≠ some .comma) (hp : Refuses p rest) (items : List β)
    (hitem : ∀ b ∈ items, ∀ ts, ts = rest ∨ ts.head? = some .comma →
      Takes p (tokens b ++ ts) ts (g · = h b)) :
    Takes (separated p (fixed .comma)) (commaSeparated (items.map tokens) ++ rest) rest
      (·.map g = items.map h) := by
  cases items with
  | nil => exact (Refuses.bind hp).orElse_takes (.pure rfl)
  | cons b bs =>
    rw [List.map_cons, commaSeparated, List.append_assoc]
    have hb := hitem b List.mem_cons_self _ (behindCommas_append (bs.map tokens) rest)
    have hbs := many_takes hrest bs fun b' hb' => hitem b' (List.mem_cons_of_mem b hb')
    refine (hb.bind fun a ha => hbs.bind fun as has => .pure ?_).orElse
    rw [List.map_cons, List.map_cons, ha, has]

end Separated

section Chains

variable {table : OperatorTable} {core : Parser Expr} {ts ts' ts'' : List Token} {t : Expr}
  {look : Op → Option OperatorDecl} {decls : List OperatorDecl} {decl : OperatorDecl}

theorem operator_takes {op : Op} (h : look op = some decl) (ts : List Token) :
    Takes (operator look decls) (.operator op :: ts) ts (·.1 = decl) :=
  token_takes h

theorem operator_refuses (h : ∀ op, ts.head? = some (.operator op) → look op = none) :
    Refuses (operator look decls) ts := by
  refine token_refuses fun t ht => ?_
  cases t with
  | operator op => exact h op ht
  | _ => rfl

theorem operation_takes (declared : table.infixed? decl.op = some decl)
    (ho : Takes (operand table core) ts ts' (·.bare = t)) :
    Takes (operation table core) (.operator decl.op :: ts) ts'
      fun (d, e) => d = decl ∧ e.bare = t := by
  refine Takes.bind (operator_takes declared ts) fun a ha => ?_
  exact ho.bind fun e he => .pure ⟨ha, he⟩

/-- All prefix operators of an operand are read, and nothing of its core. -/
theorem prefixes_take (rest : List Token) (o : Operand table) :
    Takes (many (operator table.prefixed? table.prefixedDecls)) (o.tokens ++ rest)
      (o.base.tokens ++ rest) fun ops => ∀ e, (ops.foldr underPrefix e).bare = o.wrap e.bare := by
  cases o with
  | core c =>
    obtain ⟨t, ts, ht, hop⟩ := c.tokens_head
    have hnone : Refuses (operator table.prefixed? table.prefixedDecls) (c.tokens ++ rest) := by
      refine operator_refuses fun op h => ?_
      rw [ht] at h
      exact absurd (Option.some.inj h) (hop op)
    refine (many_stops hnone).imp fun ops hops e => ?_
    rw [hops]
    rfl
  | prefixed decl declared o =>
    have hop : Takes (operator table.prefixed? table.prefixedDecls)
        (.operator decl.op :: (o.tokens ++ rest)) (o.tokens ++ rest) (·.1 = decl) :=
      operator_takes declared _
    refine (many_steps hop (Nat.lt_succ_self _) (prefixes_take rest o)).imp ?_
    rintro _ ⟨⟨d, sp⟩, ops, rfl, rfl, hops⟩ e
    rw [List.foldr_cons, underPrefix, Expr.bare, hops e]
    rfl

theorem operand_takes {rest : List Token} (o : Operand table)
    (hcore : Takes core (o.base.tokens ++ rest) rest (·.bare = o.base.tree)) :
    Takes (operand table core) (o.tokens ++ rest) rest (·.bare = o.tree) := by
  refine Takes.bind (prefixes_take rest o) fun ops hops => hcore.bind fun e he => .pure ?_
  rw [hops e, he, o.wrap_base]

/-- Whatever core stands in a normal operand of at most `n` tokens is read to its end. -/
def ReadsCores (table : OperatorTable) (core : Parser Expr) (n : Nat) : Prop :=
  ∀ c : Core table, c.Normal → c.tokens.length ≤ n → ∀ rest : List Token,
    rest.head? ≠ some .openParen → (c.Compound → Stops table rest) →
      Takes core (c.tokens ++ rest) rest (·.bare = c.tree)

/-- Whatever normal phrase of at most `n` tokens is read to its end. -/
def ReadsPhrases (table : OperatorTable) (expr : Parser Expr) (n : Nat) : Prop :=
  ∀ p : Phrase table, p.Normal → p.tokens.length ≤ n → ∀ rest : List Token, Stops table rest →
    Takes expr (p.tokens ++ rest) rest (·.bare = p.tree)

variable {n : Nat} {rest : List Token}

theorem first_takes (hcore : ReadsCores table core n) {p : Phrase table} (hp : p.Normal)
    (hlen : p.tokens.length ≤ n) (hrest : Stops table rest) :
    Takes (operand table core) (p.tokens ++ rest) (p.others ++ rest) (·.bare = p.parts.1) := by
  rw [p.tokens_eq, List.length_append] at hlen
  have hbase := p.first.base_length
  obtain ⟨hparen, hstops⟩ := Phrase.first_stops hp hrest
  have hread := hcore p.first.base (Operand.base_normal (Phrase.first_normal hp)) (by omega)
    (p.others ++ rest) hparen fun hc => hstops (Operand.base_compound hc)
  rw [p.tokens_eq, List.append_assoc]
  cases p <;> exact operand_takes _ hread

theorem operations_take (hcore : ReadsCores table core n) (hrest : Stops table rest) :
    ∀ {p : Phrase table}, p.Normal → p.tokens.length ≤ n →
      Takes (many (operation table core)) (p.others ++ rest) rest
        (Expr.Chain.bare · = p.parts.2)
  | .last o, _, _ => by
    have hnone : Refuses (operation table core) rest :=
      Refuses.bind (operator_refuses hrest.2)
    refine (many_stops hnone).imp fun as has => ?_
    rw [has]
    rfl
  | .more o decl declared tail, ⟨_, _, htail⟩, hlen => by
    have hlt : tail.tokens.length ≤ n := by
      rw [Phrase.tokens, List.length_append, List.length_cons] at hlen
      omega
    have hfirst := operation_takes declared (first_takes hcore htail hlt hrest)
    have hmore := operations_take hcore hrest htail hlt
    refine (many_steps hfirst ?_ hmore).imp ?_
    · rw [tail.tokens_eq]
      simp only [List.length_cons, List.length_append]
      omega
    · rintro _ ⟨⟨d, e⟩, as, rfl, ⟨rfl, he⟩, has⟩
      rw [Phrase.parts, ← he, ← has]
      rfl

theorem chain_takes (hcore : ReadsCores table core n) :
    ReadsPhrases table (chain table core) n := by
  intro p hp hlen rest hrest
  refine (first_takes hcore hp hlen hrest).bind fun first hfirst => ?_
  refine Takes.bind (operations_take hcore hrest hp hlen) fun others hothers => .pure ?_
  rw [Expr.climb_bare, hfirst, hothers]
  rfl

end Chains

section Cores

variable {expr : Parser Expr} {ts ts₁ ts₂ ts₃ rest : List Token} {name : String} {t t₁ t₂ : Expr}

theorem binding_takes (name : String)
    (hbound : Takes expr ts₁ (.keyword .inKw :: ts₂) (·.bare = t₁))
    (hbody : Takes expr ts₂ ts₃ (·.bare = t₂)) :
    Takes (binding expr) (.keyword .letKw :: .ident name :: .equals :: ts₁) ts₃
      (·.bare = .binding (.bare name) t₁ t₂ ⟨0, 0⟩) := by
  refine (fixed_takes _ _).bind fun _ _ => (ident_takes name _).bind fun x hx => ?_
  refine (fixed_takes _ _).bind fun _ _ => hbound.bind fun a ha => ?_
  refine (fixed_takes _ _).bind fun _ _ => hbody.bind fun b hb => ?_
  refine (lastStop_takes _).bind fun _ _ => .pure ?_
  rw [Expr.bare, hx, ha, hb]

/-- Both kinds of `let` begin alike up to the name. -/
theorem binding_refuses :
    Refuses (binding expr) (.keyword .letKw :: .ident name :: .openParen :: ts) := by
  have hequals : Refuses (fixed .equals) (.openParen :: ts) := fixed_refuses (by simp)
  exact (fixed_takes _ _).bind_refuses fun _ _ =>
    (ident_takes name _).bind_refuses fun _ _ => hequals.bind

theorem function_takes (name : String) {params : List String}
    (hparams : Takes (separated ident (fixed .comma)) ts (.closeParen :: .equals :: ts₁)
      (·.map Ident.name = params))
    (hbody : Takes expr ts₁ (.keyword .inKw :: ts₂) (·.bare = t₁))
    (hcontext : Takes expr ts₂ ts₃ (·.bare = t₂)) :
    Takes (function expr) (.keyword .letKw :: .ident name :: .openParen :: ts) ts₃
      (·.bare = .function (.bare name) (params.map .bare) t₁ t₂ ⟨0, 0⟩) := by
  refine (fixed_takes _ _).bind fun _ _ => (ident_takes name _).bind fun x hx => ?_
  have hall : Takes (parenthesized (separated ident (fixed .comma))) (.openParen :: ts)
      (.equals :: ts₁) (·.map Ident.name = params) := by
    refine (fixed_takes _ _).bind fun _ _ => hparams.bind fun ps hps => ?_
    exact (fixed_takes _ _).bind fun _ _ => .pure hps
  refine hall.bind fun ps hps => (fixed_takes _ _).bind fun _ _ => hbody.bind fun a ha => ?_
  refine (fixed_takes _ _).bind fun _ _ => hcontext.bind fun b hb => ?_
  refine (lastStop_takes _).bind fun _ _ => .pure ?_
  rw [Expr.bare, hx, ha, hb, ← hps, List.map_map]
  rfl

theorem conditional_takes {t₃ : Expr} {ts₀ : List Token}
    (hcondition : Takes expr ts₀ (.keyword .thenKw :: ts₁) (·.bare = t₁))
    (hpositive : Takes expr ts₁ (.keyword .elseKw :: ts₂) (·.bare = t₂))
    (hnegative : Takes expr ts₂ ts₃ (·.bare = t₃)) :
    Takes (conditional expr) (.keyword .ifKw :: ts₀) ts₃
      (·.bare = .conditional t₁ t₂ t₃ ⟨0, 0⟩) := by
  refine (fixed_takes _ _).bind fun _ _ => hcondition.bind fun a ha => ?_
  refine (fixed_takes _ _).bind fun _ _ => hpositive.bind fun b hb => ?_
  refine (fixed_takes _ _).bind fun _ _ => hnegative.bind fun c hc => ?_
  refine (lastStop_takes _).bind fun _ _ => .pure ?_
  rw [Expr.bare, ha, hb, hc]

theorem group_takes (hinner : Takes expr ts (.closeParen :: rest) (·.bare = t)) :
    Takes (parenthesized expr) (.openParen :: ts) rest (·.bare = t) := by
  refine (fixed_takes _ _).bind fun _ _ => hinner.bind fun a ha => ?_
  exact (fixed_takes _ _).bind fun _ _ => .pure ha

theorem reference_takes (hrest : rest.head? ≠ some .openParen) :
    Takes (referenceOrCall expr) (.ident name :: rest) rest
      (·.bare = .reference (.bare name) ⟨0, 0⟩) := by
  refine (ident_takes name _).bind fun x hx => ?_
  refine Refuses.orElse_takes (Refuses.bind (Refuses.bind (fixed_refuses hrest))) (.pure ?_)
  rw [Expr.bare, hx]

theorem call_takes (name : String) {args : List Expr}
    (hargs : Takes (separated expr (fixed .comma)) ts (.closeParen :: rest)
      (Expr.bareAll · = args)) :
    Takes (referenceOrCall expr) (.ident name :: .openParen :: ts) rest
      (·.bare = .call (.bare name) args ⟨0, 0⟩) := by
  refine (ident_takes name _).bind fun x hx => ?_
  have hall : Takes (parenthesized (separated expr (fixed .comma))) (.openParen :: ts) rest
      (Expr.bareAll · = args) := by
    refine (fixed_takes _ _).bind fun _ _ => hargs.bind fun es hes => ?_
    exact (fixed_takes _ _).bind fun _ _ => .pure hes
  refine (hall.bind fun es hes => (lastStop_takes _).bind fun _ _ => .pure ?_).orElse
  rw [Expr.bare, hx, hes]

theorem compound_refuses (hlet : ts.head? ≠ some (.keyword .letKw))
    (hif : ts.head? ≠ some (.keyword .ifKw)) : Refuses (compound expr) ts :=
  (fixed_refuses hlet).bind.orElse ((fixed_refuses hlet).bind.orElse (fixed_refuses hif).bind)

end Cores

section Levels

variable {table : OperatorTable} {expr : Parser Expr} {n : Nat}

theorem args_take (hexpr : ReadsPhrases table expr n)
    (hclose : ∀ ts, Refuses expr (.closeParen :: ts)) {args : List (Phrase table)}
    (hargs : NormalAll args) (hlen : (commaSeparated (tokensAll args)).length ≤ n)
    (rest : List Token) :
    Takes (separated expr (fixed .comma)) (commaSeparated (tokensAll args) ++ .closeParen :: rest)
      (.closeParen :: rest) (Expr.bareAll · = treesAll args) := by
  rw [tokensAll_eq] at hlen ⊢
  rw [treesAll_eq]
  refine (separated_takes (g := Expr.bare) (h := Phrase.tree) (by simp) (hclose rest) args
    fun p hp ts hts => ?_).imp fun es hes => (Expr.bareAll_eq es).trans hes
  have hle := length_le_commaSeparated (List.mem_map_of_mem (f := Phrase.tokens) hp)
  refine hexpr p (hargs.mem hp) (by omega) ts ?_
  rcases hts with rfl | hts
  · exact stops_cons rfl rest
  · cases ts with
    | nil => cases hts
    | cons t ts =>
      cases hts
      exact stops_cons rfl ts

theorem params_take (params : List String) (rest : List Token) :
    Takes (separated ident (fixed .comma))
      (commaSeparated (params.map fun p => [.ident p]) ++ .closeParen :: rest)
      (.closeParen :: rest) (·.map Ident.name = params) := by
  refine (separated_takes (g := Ident.name) (h := id) (by simp)
    (ident_refuses (by simp)) params fun p _ ts _ => ident_takes p ts).imp fun as has => ?_
  rw [has, List.map_id]

/-- A level of the grammar reads its cores to their end if the level below reads its phrases. -/
theorem anyCore_takes (hexpr : ReadsPhrases table expr n)
    (hclose : ∀ ts, Refuses expr (.closeParen :: ts)) :
    ReadsCores table (anyCore expr) (n + 1) := by
  intro c hc hlen rest hparen hstops
  cases c with
  | binding name bound body =>
    simp only [Core.tokens, List.length_cons, List.length_append] at hlen
    have hb := hexpr bound hc.1 (by omega) (.keyword .inKw :: (body.tokens ++ rest))
      (stops_cons rfl _)
    have ht := binding_takes name hb (hexpr body hc.2 (by omega) rest (hstops trivial))
    simp only [Core.tokens, List.cons_append, List.append_assoc]
    exact ht.orElse.orElse
  | function name params body context =>
    simp only [Core.tokens, List.length_cons, List.length_append] at hlen
    have hb := hexpr body hc.1 (by omega) (.keyword .inKw :: (context.tokens ++ rest))
      (stops_cons rfl _)
    have ht := function_takes name (params_take params _) hb
      (hexpr context hc.2 (by omega) rest (hstops trivial))
    simp only [Core.tokens, List.cons_append, List.append_assoc]
    exact (binding_refuses.orElse_takes ht.orElse).orElse
  | conditional condition positive negative =>
    simp only [Core.tokens, List.length_cons, List.length_append] at hlen
    have hcond := hexpr condition hc.1 (by omega) (.keyword .thenKw :: (positive.tokens ++
      .keyword .elseKw :: (negative.tokens ++ rest))) (stops_cons rfl _)
    have hpos := hexpr positive hc.2.1 (by omega) (.keyword .elseKw :: (negative.tokens ++ rest))
      (stops_cons rfl _)
    have ht := conditional_takes hcond hpos
      (hexpr negative hc.2.2 (by omega) rest (hstops trivial))
    simp only [Core.tokens, List.cons_append, List.append_assoc]
    have hlet : Refuses (fixed (.keyword .letKw)) (.keyword .ifKw :: (condition.tokens ++
        .keyword .thenKw :: (positive.tokens ++ .keyword .elseKw :: (negative.tokens ++ rest)))) :=
      fixed_refuses (by simp)
    exact (hlet.bind.orElse_takes (hlet.bind.orElse_takes ht)).orElse
  | number digits =>
    refine (compound_refuses (by simp [Core.tokens]) (by simp [Core.tokens])).orElse_takes ?_
    refine Takes.orElse ((number_takes digits rest).imp ?_)
    rintro _ ⟨sp, rfl⟩
    rfl
  | reference name =>
    refine (compound_refuses (by simp [Core.tokens]) (by simp [Core.tokens])).orElse_takes ?_
    have hnone : Refuses number ((Core.reference name : Core table).tokens ++ rest) :=
      number_refuses (by simp [Core.tokens])
    exact hnone.orElse_takes (reference_takes hparen).orElse
  | call name args =>
    have hlen' : (commaSeparated (tokensAll args)).length ≤ n := by
      simp only [Core.tokens, List.length_cons, List.length_append] at hlen
      omega
    have ht := call_takes name (args_take hexpr hclose hc hlen' rest)
    simp only [Core.tokens, List.cons_append, List.append_assoc, List.nil_append]
    refine (compound_refuses (by simp) (by simp)).orElse_takes ?_
    exact (number_refuses (by simp)).orElse_takes ht.orElse
  | group inner =>
    simp only [Core.tokens, List.length_cons, List.length_append] at hlen
    have ht := group_takes (hexpr inner hc (by omega) (.closeParen :: rest)
      (stops_cons rfl _))
    simp only [Core.tokens, List.cons_append, List.append_assoc, List.nil_append]
    refine (compound_refuses (by simp) (by simp)).orElse_takes ?_
    refine (number_refuses (by simp)).orElse_takes ?_
    exact (Refuses.bind (ident_refuses (by simp))).orElse_takes ht

theorem anyCore_refuses (ts : List Token) : Refuses (anyCore expr) (.closeParen :: ts) := by
  refine (compound_refuses (by simp) (by simp)).orElse ?_
  have hopen : Refuses (fixed .openParen) (.closeParen :: ts) := fixed_refuses (by simp)
  exact (number_refuses (by simp)).orElse
    ((Refuses.bind (ident_refuses (by simp))).orElse hopen.bind)

theorem expression_refuses (ts : List Token) :
    ∀ depth, Refuses (expression table anyCore depth) (.closeParen :: ts)
  | 0 => fun _ f _ => ⟨f, rfl⟩
  | depth + 1 => by
    have hnone : Refuses (operator table.prefixed? table.prefixedDecls) (.closeParen :: ts) :=
      operator_refuses (by simp)
    have hoperand : Refuses (operand table (anyCore (expression table anyCore depth)))
        (.closeParen :: ts) :=
      Takes.bind_refuses (many_stops hnone) fun _ _ => (anyCore_refuses ts).bind
    exact hoperand.bind

/-- Phrases nest no deeper than they have tokens. -/
theorem expression_takes (table : OperatorTable) :
    ∀ depth, ReadsPhrases table (expression table anyCore depth) depth
  | 0 => fun p _ hlen => absurd p.tokens_pos (by omega)
  | depth + 1 =>
    chain_takes (anyCore_takes (expression_takes table depth) fun ts => expression_refuses ts depth)

end Levels

end Parser

end Heightfield
