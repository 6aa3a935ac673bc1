import Heightfield.Build
import Heightfield.Proofs.Grammar.Mirror
import Heightfield.Proofs.Grammar.Spans
import Heightfield.Proofs.Suggestion.Nearest
import Heightfield.Proofs.Token.Replacing
import Heightfield.Proofs.WellFormed.Mentions

/-! What is suggested for a name that is bound nowhere is the nearest name that could stand in its
place, and a source that follows the suggestion is accepted there. -/

namespace Heightfield

open Lexer

/-- Tokens of two sources that differ in one name, which starts at the same byte of both. -/
def Replaced (start : Nat) (name other : String) (l l' : Lexeme) : Prop :=
  (l.token = l'.token ∧ l.span.start ≠ start ∧ l'.span.start ≠ start) ∨
    l.token = .ident name ∧ l'.token = .ident other ∧ l.span.start = start ∧ l'.span.start = start

namespace Replaced

variable {start : Nat} {name other : String}

theorem alike {l l' : Lexeme} (h : Replaced start name other l l') :
    l.token.Alike l'.token := by
  rcases h with ⟨h, -⟩ | ⟨hname, hother, -⟩
  · exact .inl h
  · exact .inr ⟨name, other, hname, hother⟩

theorem named {n n' : Ident} (h : Named (Replaced start name other) n n') :
    (n.name = n'.name ∧ n.span.start ≠ start ∧ n'.span.start ≠ start) ∨
      n'.name = other ∧ n.span.start = start ∧ n'.span.start = start := by
  obtain ⟨l, l', h, hl, hl'⟩ := h
  obtain ⟨htoken, hspan⟩ := Lexeme.ident?_eq_some.1 hl
  obtain ⟨htoken', hspan'⟩ := Lexeme.ident?_eq_some.1 hl'
  unfold Replaced at h
  rw [htoken, htoken', hspan, hspan'] at h
  rcases h with ⟨heq, hne⟩ | ⟨-, hother, heq⟩
  · exact .inl ⟨Token.ident.inj heq, hne⟩
  · exact .inr ⟨Token.ident.inj hother, heq⟩

theorem around {before behind behind' : List Lexeme} {l l' : Lexeme}
    (hl : l.token = .ident name) (hl' : l'.token = .ident other)
    (hstart : l'.span.start = l.span.start)
    (hbehind : behind'.map (·.token) = behind.map (·.token))
    (hrising : Rising (before ++ l :: behind)) (hrising' : Rising (before ++ l' :: behind')) :
    List.Forall₂ (Replaced l.span.start name other) (before ++ l :: behind)
      (before ++ l' :: behind') := by
  obtain ⟨hne, hne'⟩ := hrising.start_ne
  have hne'' := hrising'.start_ne.2
  rw [hstart] at hne''
  refine List.rel_append ?_ (.cons (.inr ⟨hl, hl', rfl, hstart⟩) ?_)
  · exact List.forall₂_same.2 fun b hb => .inl ⟨rfl, hne b hb, hne b hb⟩
  · have hsame := forall₂_token hbehind.symm
    have hleft := (List.forall₂_and_left behind behind').2 ⟨hne', hsame⟩
    have hright := (List.forall₂_and_left behind' behind).2 ⟨hne'', hleft.flip⟩
    exact hright.flip.imp fun b b' h => .inl ⟨h.2.2, h.2.1, h.1⟩

end Replaced

/-- No coordinate or builtin is named like a keyword. -/
theorem ident_wellFormed {name : String}
    (h : name ∈ Param.all.map (·.name) ++ Builtin.names) : (Token.ident name).WellFormed := by
  have hall : ∀ name ∈ Param.all.map (·.name) ++ Builtin.names, ofWord name = .ident name ∧
      (name.toList.head?.any startsWord && name.toList.tail.all continuesWord) = true := by
    decide +kernel
  obtain ⟨hword, hchars⟩ := hall name h
  rw [Bool.and_eq_true, Option.any_eq_true] at hchars
  obtain ⟨⟨c, hc, hstarts⟩, hcontinues⟩ := hchars
  obtain ⟨cs, hname⟩ := List.head?_eq_some_iff.1 hc
  rw [hname] at hcontinues
  exact ⟨⟨c, cs, hname, hstarts, List.all_eq_true.1 hcontinues⟩, hword⟩

theorem Written.ident_wellFormed {lexemes : List Lexeme} {e : Expr} {i : Ident}
    (h : Written lexemes e) (hformed : ∀ l ∈ lexemes, l.token.WellFormed) (hi : i ∈ e.idents) :
    (Token.ident i.name).WellFormed := by
  rw [h.idents] at hi
  obtain ⟨l, hl, hname⟩ := List.mem_filterMap.1 hi
  rw [← (Lexeme.ident?_eq_some.1 hname).1]
  exact hformed l hl

/-- What could be referred to in a parsed tree has a name that can be written. -/
theorem Written.visible_wellFormed {lexemes : List Lexeme} {e : Expr} {m : Mention} {name : String}
    (h : Written lexemes e) (hformed : ∀ l ∈ lexemes, l.token.WellFormed)
    (hm : m ∈ e.mentions []) (hname : name ∈ m.around.visible) :
    (Token.ident name).WellFormed := by
  rw [Names.visible, List.append_assoc, List.mem_append, List.mem_reverse] at hname
  rcases hname with hname | hname
  · rcases Expr.mem_around e [] m hm hname with hnone | hbinder
    · cases hnone
    · obtain ⟨i, hi, rfl⟩ := List.mem_map.1 hbinder
      exact h.ident_wellFormed hformed (e.binders_sublist.subset hi)
  · exact Heightfield.ident_wellFormed hname

namespace Expr

variable {e : Expr} {m m' : Mention} {i : Ident}

theorem mem_idents_of_mention (hm : m ∈ e.mentions []) : m.name ∈ e.idents := by
  have hcount := count_idents m.name e []
  have hpos : 0 < ((e.mentions []).map (·.name)).count m.name :=
    List.count_pos_iff.2 (List.mem_map_of_mem hm)
  exact List.count_pos_iff.1 (by omega)

/-- Where no name stands twice, none that is used binds, and each is used in one place. -/
theorem mention_unique (h : e.idents.Nodup) (hm : m ∈ e.mentions []) :
    m.name ∉ e.binders ∧ ∀ m' ∈ e.mentions [], m'.name = m.name → m' = m := by
  have hone := List.nodup_iff_count_le_one.1 h
  constructor
  · intro hbinder
    have hcount := count_idents m.name e []
    have hpos : 0 < ((e.mentions []).map (·.name)).count m.name :=
      List.count_pos_iff.2 (List.mem_map_of_mem hm)
    have hpos' := List.count_pos_iff.2 hbinder
    have hle := hone m.name
    omega
  · intro m' hm' heq
    have hnodup : ((e.mentions []).map (·.name)).Nodup := by
      refine List.nodup_iff_count_le_one.2 fun i => ?_
      have hcount := count_idents i e []
      have hle := hone i
      omega
    exact List.inj_on_of_nodup_map hnodup hm' hm heq

end Expr

/-- The names of a parsed tree start at different bytes. -/
theorem Written.start_inj {lexemes : List Lexeme} {e : Expr} (h : Written lexemes e)
    (hrising : Rising lexemes) {i j : Ident} (hi : i ∈ e.idents) (hj : j ∈ e.idents)
    (heq : i.span.start = j.span.start) : i = j := by
  rw [h.idents] at hi hj
  obtain ⟨a, ha, hai⟩ := List.mem_filterMap.1 hi
  obtain ⟨b, hb, hbj⟩ := List.mem_filterMap.1 hj
  rw [← (Lexeme.ident?_eq_some.1 hai).2, ← (Lexeme.ident?_eq_some.1 hbj).2] at heq
  obtain ⟨us, vs, rfl⟩ := List.append_of_mem hb
  obtain ⟨hus, hvs⟩ := hrising.start_ne
  obtain ha | rfl | ha := List.mem_append.1 ha |>.imp_right List.mem_cons.1
  · exact absurd heq (hus a ha)
  · exact Option.some.inj (hai.symm.trans hbj)
  · exact absurd heq (hvs a ha)

theorem exists_of_forall₂ {α β : Type} {R : α → β → Prop} {as : List α} {bs : List β}
    (h : List.Forall₂ R as bs) {b : β} (hb : b ∈ bs) : ∃ a ∈ as, R a b := by
  induction h with
  | nil => cases hb
  | cons hab _ ih =>
    rcases List.mem_cons.1 hb with rfl | hb
    · exact ⟨_, List.mem_cons_self, hab⟩
    · obtain ⟨a, ha, hab⟩ := ih hb
      exact ⟨a, List.mem_cons_of_mem _ ha, hab⟩

/-- Where one used name is replaced by one that has a meaning in its place, it has that meaning. -/
theorem Alike.resolves {e e' : Expr} {start : Nat} {name other : String} {m m' : Mention}
    (h : Alike (Named (Replaced start name other)) e e') (hnodup : e.idents.Nodup)
    (hstarts : ∀ i ∈ e.idents, i.span.start = start → i = m.name) (hm : m ∈ e.mentions [])
    (hother : m.around.sense? other ≠ none) (hm' : m' ∈ e'.mentions [])
    (hstart : m'.name.span.start = start) : m'.Resolves := by
  obtain ⟨hfree, hunique⟩ := Expr.mention_unique hnodup hm
  have hmentions := h.mentions [] fun n hn n' hnamed => by
    rcases Replaced.named hnamed with ⟨heq, -⟩ | ⟨-, heq, -⟩
    · exact heq
    · exact absurd (hstarts n (e.binders_sublist.subset hn) heq ▸ hn) hfree
  obtain ⟨m₀, hm₀, hname, haround⟩ := exists_of_forall₂ hmentions hm'
  rcases Replaced.named hname with ⟨-, -, hne⟩ | ⟨heq, hstart₀, -⟩
  · exact absurd hstart hne
  · obtain rfl := hunique m₀ hm₀ (hstarts _ (Expr.mem_idents_of_mention hm₀) hstart₀)
    rwa [Mention.Resolves, heq, ← haround]

/-- The name stands in the source at that span, and the source with `s` in its place parses.
Whatever the compilation of that source complains of, it is not a name in that place that is bound
nowhere. -/
def Suggestion.Fits (source name : String) (span : Span) (s : String) : Prop :=
  ∃ front back : String, source = front ++ (name ++ back) ∧
    span = ⟨front.utf8ByteSize, front.utf8ByteSize + name.utf8ByteSize⟩ ∧
    ∃ e, parse (front ++ (s ++ back)) = .ok e ∧ ∀ name' span' similar,
      e.compile = .error (.unresolvedReference name' span' similar) → span'.start ≠ span.start

theorem parse_fits {source : String} {e : Expr} {name s : String} {span : Span}
    (hparse : parse source = .ok e)
    (hcompile : e.compile = .error (.unresolvedReference name span (some s))) :
    Suggestion.Fits source name span s := by
  obtain ⟨before, around, after, hmentions, -, hnone, hsimilar⟩ := Expr.mentions_of_compile hcompile
  have hvisible : s ∈ around.visible := by
    have hnearest := Suggestion.similar?_nearest fun hname => Names.sense?_of_visible hname hnone
    rw [← hsimilar] at hnearest
    exact hnearest.mem
  have hm : ⟨⟨name, span⟩, around⟩ ∈ e.mentions [] := by simp [hmentions]
  obtain ⟨lexemes, hlex, hwritten⟩ := parse_written hparse
  have hother := hwritten.visible_wellFormed (lex_wellFormed hlex) hm hvisible
  have hmem := Expr.mem_idents_of_mention hm
  rw [hwritten.idents] at hmem
  obtain ⟨l, hl, hident⟩ := List.mem_filterMap.1 hmem
  obtain ⟨htoken, rfl⟩ := Lexeme.ident?_eq_some.1 hident
  obtain ⟨us, vs, rfl⟩ := List.append_of_mem hl
  obtain ⟨front, back, hsource, hspan, l', vs', hlex', htoken', hstart, hvs⟩ :=
    lex_replace hlex htoken hother
  have hreplaced := Replaced.around htoken htoken' hstart hvs (lex_rising hlex) (lex_rising hlex')
  obtain ⟨_, hlex₀, htokens⟩ := parse_eq_ok.1 hparse
  cases hlex.symm.trans hlex₀
  obtain ⟨_, e', hr, hr', halike⟩ | ⟨f, hr, -⟩ :=
    parseTokens_mirrored (fun _ _ => Replaced.alike) hreplaced source (front ++ (s ++ back))
  · cases htokens.symm.trans hr
    refine ⟨front, back, hsource, hspan, e', parse_eq_ok.2 ⟨_, hlex', hr'⟩, ?_⟩
    intro name' span' similar hcompile' hstart'
    obtain ⟨_, around', _, hmentions', -, hnone', -⟩ := Expr.mentions_of_compile hcompile'
    have hm' : ⟨⟨name', span'⟩, around'⟩ ∈ e'.mentions [] := by simp [hmentions']
    refine halike.resolves ((parse_idents hparse).2.of_map _) (fun i hi heq => ?_) hm
      (Names.sense?_of_visible hvisible) hm' hstart' hnone'
    exact hwritten.start_inj (lex_rising hlex) hi (Expr.mem_idents_of_mention hm) heq
  · cases htokens.symm.trans hr

/-- What is suggested for the first name that is bound nowhere is the nearest of all that could
stand in its place, and a source that follows the suggestion is accepted there. -/
theorem compile_suggests_nearest {e : Expr} {name : String} {span : Span} {similar : Option String}
    (h : e.compile = .error (.unresolvedReference name span similar)) :
    (∃ before around after, e.mentions [] = before ++ ⟨⟨name, span⟩, around⟩ :: after ∧
      (∀ m ∈ before, m.Resolves) ∧ around.sense? name = none ∧
        Suggestion.Nearest name around.visible similar) ∧
    ∀ source s, parse source = .ok e → similar = some s →
      Suggestion.Fits source name span s := by
  constructor
  · obtain ⟨before, around, after, hmentions, hbefore, hnone, hsimilar⟩ :=
      Expr.mentions_of_compile h
    refine ⟨before, around, after, hmentions, hbefore, hnone, ?_⟩
    rw [hsimilar]
    exact Suggestion.similar?_nearest fun hname => Names.sense?_of_visible hname hnone
  · rintro source s hparse rfl
    exact parse_fits hparse h

/-- In `let alpha = x in alpa` the nearest name is that of the binding. -/
theorem misspeltBinding_fits :
    build "let alpha = x in alpa" =
      .error (.compile (.unresolvedReference "alpa" ⟨17, 21⟩ (some "alpha"))) ∧
    Suggestion.Fits "let alpha = x in alpa" "alpa" ⟨17, 21⟩ "alpha" := by
  let e : Expr := .binding ⟨"alpha", ⟨4, 9⟩⟩ (.reference ⟨"x", ⟨12, 13⟩⟩ ⟨12, 13⟩)
    (.reference ⟨"alpa", ⟨17, 21⟩⟩ ⟨17, 21⟩) ⟨0, 21⟩
  have hparse : parse "let alpha = x in alpa" = .ok e := by cbv
  have hcompile : e.compile = .error (.unresolvedReference "alpa" ⟨17, 21⟩ (some "alpha")) := rfl
  refine ⟨?_, (compile_suggests_nearest hcompile).2 _ _ hparse rfl⟩
  rw [build, hparse]
  rfl

end Heightfield
