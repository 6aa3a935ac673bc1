import Heightfield.Proofs.Expr.Idents
import Heightfield.Proofs.Expr.Nodes
import Heightfield.Proofs.Grammar.Written
import Heightfield.Proofs.Token.Tiling

/-! Where the parts of a parsed tree stand in its source: its names are the name tokens of the
source, one for one and in their order, and each node is written with tokens that stand together. -/

namespace Heightfield

theorem Lexeme.ident?_eq_some {l : Lexeme} {n : Ident} :
    l.ident? = some n ↔ l.token = .ident n.name ∧ l.span = n.span := by
  unfold ident?
  split
  · next name hl =>
    rw [hl]
    constructor
    · intro h
      cases h
      exact ⟨rfl, rfl⟩
    · rintro ⟨hname, hspan⟩
      cases hname
      rw [hspan]
  · next hl =>
    refine ⟨nofun, ?_⟩
    rintro ⟨hname, -⟩
    exact absurd hname (hl n.name)

/-- The names among the tokens. -/
def identsOf (ls : List Lexeme) : List Ident := ls.filterMap Lexeme.ident?

theorem identsOf_append (ls ms : List Lexeme) : identsOf (ls ++ ms) = identsOf ls ++ identsOf ms :=
  List.filterMap_append

theorem identsOf_cons_name {l : Lexeme} {n : Ident} (h : l.ident? = some n) (ls : List Lexeme) :
    identsOf (l :: ls) = n :: identsOf ls := List.filterMap_cons_some h

theorem identsOf_cons_other {l : Lexeme} {t : Token} (h : l.token = t)
    (ht : Lexeme.ident? ⟨t, l.span⟩ = none) (ls : List Lexeme) :
    identsOf (l :: ls) = identsOf ls := by
  subst h
  exact List.filterMap_cons_none ht

theorem Separated.identsOf {pieces : List (List Lexeme)} {ls : List Lexeme}
    (h : Separated pieces ls) : identsOf ls = pieces.flatMap identsOf := by
  induction h with
  | nil => rfl
  | one => simp
  | more hcomma _ ih =>
    rw [identsOf_append, identsOf_cons_other hcomma rfl, ih]
    rfl

theorem identsAll_items {items : List (List Lexeme × Expr)}
    (h : ∀ item ∈ items, item.2.idents = identsOf item.1) :
    Expr.identsAll (items.map (·.2)) = (items.map (·.1)).flatMap identsOf := by
  induction items with
  | nil => rfl
  | cons item items ih =>
    obtain ⟨hitem, hitems⟩ := List.forall_mem_cons.1 h
    rw [List.map_cons, Expr.identsAll, hitem, ih hitems, List.map_cons, List.flatMap_cons]

theorem flatMap_names {params : List (List Lexeme × Ident)} (h : ∀ p ∈ params, IsName p.1 p.2) :
    (params.map (·.1)).flatMap identsOf = params.map (·.2) := by
  induction params with
  | nil => rfl
  | cons p params ih =>
    obtain ⟨⟨l, hl, hname⟩, hparams⟩ := List.forall_mem_cons.1 h
    rw [List.map_cons, List.flatMap_cons, hl, identsOf_cons_name hname, ih hparams, List.map_cons]
    rfl

/-- The names of a tree are those among its tokens. -/
theorem Written.idents {ls : List Lexeme} {e : Expr} (h : Written ls e) :
    e.idents = identsOf ls := by
  induction h with
  | number hl => exact (identsOf_cons_other hl rfl []).symm
  | reference hl => exact (identsOf_cons_name hl []).symm
  | call hl hopening _ hls hclosing ih =>
    rw [identsOf_cons_name hl, identsOf_cons_other hopening rfl, identsOf_append, hls.identsOf,
      identsOf_cons_other hclosing rfl, Expr.idents, identsAll_items ih]
    exact congrArg _ (List.append_nil _).symm
  | group hopening _ hclosing ih =>
    rw [identsOf_cons_other hopening rfl, identsOf_append, identsOf_cons_other hclosing rfl, ih]
    exact (List.append_nil _).symm
  | unary hl _ _ ih => rw [identsOf_cons_other hl rfl, Expr.idents, ih]
  | binary _ hl _ _ ih₁ ih₂ =>
    rw [identsOf_append, identsOf_cons_other hl rfl, Expr.combine, Expr.idents, ih₁, ih₂]
  | binding hopening hl hequals _ hinner _ _ ih₁ ih₂ =>
    rw [identsOf_cons_other hopening rfl, identsOf_cons_name hl,
      identsOf_cons_other hequals rfl, identsOf_append, identsOf_cons_other hinner rfl,
      Expr.idents, ih₁, ih₂]
  | function hopening hl hleft names hks hright hequals _ hinner _ _ ih₁ ih₂ =>
    rw [identsOf_cons_other hopening rfl, identsOf_cons_name hl, identsOf_cons_other hleft rfl,
      identsOf_append, hks.identsOf, flatMap_names names, identsOf_cons_other hright rfl,
      identsOf_cons_other hequals rfl, identsOf_append, identsOf_cons_other hinner rfl,
      Expr.idents, ih₁, ih₂]
  | conditional hopening _ hyes _ hno _ _ ih₁ ih₂ ih₃ =>
    rw [identsOf_cons_other hopening rfl, identsOf_append, identsOf_cons_other hyes rfl,
      identsOf_append, identsOf_cons_other hno rfl, Expr.idents, ih₁, ih₂, ih₃]

/-- The names of a parsed tree stand apart from each other. -/
theorem parse_idents {source : String} {e : Expr} (h : parse source = .ok e) :
    (∀ i ∈ e.idents, i.span.slice? source.toList = some i.name.toList) ∧
      (e.idents.map (·.span)).Nodup := by
  obtain ⟨lexemes, hlex, hwritten⟩ := parse_written h
  have htiles := (Lexer.scans_of_ok (lex_eq_ok.1 hlex)).tiles_source rfl
  rw [hwritten.idents]
  constructor
  · intro i hi
    obtain ⟨l, hl, hname⟩ := List.mem_filterMap.1 hi
    obtain ⟨htoken, hspan⟩ := Lexeme.ident?_eq_some.1 hname
    rw [← hspan, htiles.spelled l hl, htoken]
    rfl
  · refine List.pairwise_map.2 (List.pairwise_filterMap.2 (htiles.ordered.imp_of_mem ?_))
    intro a b ha hb hle i hi j hj heq
    have hlt := htiles.nonempty b hb
    rw [(Lexeme.ident?_eq_some.1 hi).2, (Lexeme.ident?_eq_some.1 hj).2, heq] at hle
    rw [(Lexeme.ident?_eq_some.1 hj).2] at hlt
    omega

theorem Separated.infix {pieces : List (List Lexeme)} {ls piece : List Lexeme}
    (h : Separated pieces ls) (hpiece : piece ∈ pieces) : piece <:+: ls := by
  induction h with
  | nil => cases hpiece
  | one =>
    obtain rfl := List.mem_singleton.1 hpiece
    exact List.infix_refl _
  | @more first _ _ comma ls _ _ ih =>
    rcases List.mem_cons.1 hpiece with rfl | hpiece
    · exact (List.prefix_append _ _).isInfix
    · exact (ih hpiece).trans ⟨first ++ [comma], [], by simp⟩

/-- The tree is written with some of the tokens, which stand together. -/
def WrittenIn (ls : List Lexeme) (e : Expr) : Prop := ∃ ms, ms <:+: ls ∧ Written ms e

theorem Written.whole {ls : List Lexeme} {e : Expr} (h : Written ls e) : WrittenIn ls e :=
  ⟨ls, List.infix_refl ls, h⟩

theorem WrittenIn.inside {us vs : List Lexeme} {e : Expr} (h : WrittenIn us e) (hus : us <:+: vs) :
    WrittenIn vs e := by
  obtain ⟨ms, hms, hwritten⟩ := h
  exact ⟨ms, hms.trans hus, hwritten⟩

theorem Written.node {ls : List Lexeme} {e node : Expr} (h : Written ls e)
    (hnode : node ∈ e.nodes) : WrittenIn ls node := by
  have whole := h.whole
  induction h with
  | number | reference =>
    obtain rfl := List.mem_singleton.1 hnode
    exact whole
  | @call l n opening ls closing items _ _ parts hls _ ih =>
    rcases List.mem_cons.1 hnode with rfl | hnode
    · exact whole
    · obtain ⟨_, harg, hnode⟩ := Expr.mem_nodesAll.1 hnode
      obtain ⟨item, hitem, rfl⟩ := List.mem_map.1 harg
      have hpiece := hls.infix (List.mem_map_of_mem hitem)
      exact (ih item hitem hnode (parts item hitem).whole).inside
        (hpiece.trans ⟨[l, opening], [closing], by simp⟩)
  | @group opening ls e closing _ inner _ ih =>
    exact (ih hnode inner.whole).inside ⟨[opening], [closing], by simp⟩
  | @unary l _ ls _ _ _ operand ih =>
    rcases List.mem_cons.1 hnode with rfl | hnode
    · exact whole
    · exact (ih hnode operand.whole).inside ⟨[l], [], by simp⟩
  | @binary l _ ls _ ms _ first _ _ second ih₁ ih₂ =>
    rcases List.mem_cons.1 hnode with rfl | hnode
    · exact whole
    · rcases List.mem_append.1 hnode with hnode | hnode
      · exact (ih₁ hnode first.whole).inside ⟨[], l :: ms, by simp⟩
      · exact (ih₂ hnode second.whole).inside ⟨ls ++ [l], [], by simp⟩
  | @binding opening l _ equals ls _ inner ms _ _ _ _ _ first _ second _ ih₁ ih₂ =>
    rcases List.mem_cons.1 hnode with rfl | hnode
    · exact whole
    · rcases List.mem_append.1 hnode with hnode | hnode
      · exact (ih₁ hnode first.whole).inside ⟨[opening, l, equals], inner :: ms, by simp⟩
      · exact (ih₂ hnode second.whole).inside ⟨opening :: l :: equals :: (ls ++ [inner]), [], by simp⟩
  | @function opening l _ left ks right equals ls _ inner ms _ _ _ _ _ _ _ _ _ _ first _ second _
      ih₁ ih₂ =>
    rcases List.mem_cons.1 hnode with rfl | hnode
    · exact whole
    · rcases List.mem_append.1 hnode with hnode | hnode
      · exact (ih₁ hnode first.whole).inside
          ⟨opening :: l :: left :: (ks ++ [right, equals]), inner :: ms, by simp⟩
      · exact (ih₂ hnode second.whole).inside
          ⟨opening :: l :: left :: (ks ++ right :: equals :: (ls ++ [inner])), [], by simp⟩
  | @conditional opening ls _ yes ms _ no ns _ _ _ first _ second _ third _ ih₁ ih₂ ih₃ =>
    rcases List.mem_cons.1 hnode with rfl | hnode
    · exact whole
    · rcases List.mem_append.1 hnode with hnode | hnode
      · rcases List.mem_append.1 hnode with hnode | hnode
        · exact (ih₁ hnode first.whole).inside ⟨[opening], yes :: (ms ++ no :: ns), by simp⟩
        · exact (ih₂ hnode second.whole).inside ⟨opening :: (ls ++ [yes]), no :: ns, by simp⟩
      · exact (ih₃ hnode third.whole).inside ⟨opening :: (ls ++ yes :: (ms ++ [no])), [], by simp⟩

end Heightfield
