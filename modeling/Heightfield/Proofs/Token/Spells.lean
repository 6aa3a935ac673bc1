import Heightfield.Proofs.Token.Munch

/-! Texts that spell tokens, without regard to where the tokens stand. -/

namespace Heightfield

open Lexer

/-- The text spells well-formed tokens with blanks between some of them, at least where the next
character would go on with a token. -/
inductive Spells : List Char → List Token → Prop
  | done : Spells [] []
  | blank {c cs ts} (hblank : isBlank c = true) (hrest : Spells cs ts) : Spells (c :: cs) ts
  | token {t rest ts} (hformed : t.WellFormed) (hends : t.Ends rest) (hrest : Spells rest ts) :
    Spells (t.spelling.toList ++ rest) (t :: ts)

namespace Spells

theorem scan {cs : List Char} {ts : List Token} (h : Spells cs ts) (offset : Nat) :
    ∃ lexemes, Lexer.scan cs offset = .ok lexemes ∧ lexemes.map (·.token) = ts := by
  induction h generalizing offset with
  | done => exact ⟨[], by rw [Lexer.scan], rfl⟩
  | blank hblank _ ih =>
    obtain ⟨lexemes, hscan, htokens⟩ := ih (offset + 1)
    exact ⟨lexemes, by rw [scan_blank hblank, hscan], htokens⟩
  | @token t rest ts hformed hends _ ih =>
    obtain ⟨c, ds, hspelling, hmunch⟩ := munch_spelling t hformed hends
    obtain ⟨lexemes, hscan, htokens⟩ := ih (offset + t.spelling.length)
    refine ⟨⟨t, ⟨offset, offset + t.spelling.length⟩⟩ :: lexemes, ?_, ?_⟩
    · rw [hspelling, List.cons_append, scan_token hspelling hmunch, hscan]
      rfl
    · rw [List.map_cons, htokens]

theorem lex {source : String} {ts : List Token} (h : Spells source.toList ts) :
    ∃ lexemes, Heightfield.lex source = .ok lexemes ∧ lexemes.map (·.token) = ts := by
  obtain ⟨lexemes, hscan, htokens⟩ := h.scan 0
  exact ⟨lexemes, lex_eq_ok.2 hscan, htokens⟩

end Spells

theorem scan_wellFormed {text : List Char} {offset : Nat} {lexemes : List Lexeme}
    (h : Lexer.scan text offset = .ok lexemes) : ∀ l ∈ lexemes, l.token.WellFormed := by
  fun_induction Lexer.scan text offset generalizing lexemes with
  | case1 offset =>
    cases h
    intro l hl
    cases hl
  | case2 offset c cs hblank ih => exact ih h
  | case3 offset c cs hblank hmunch => cases h
  | case4 offset c cs hblank t hmunch length =>
    rename_i ih
    cases hrest : Lexer.scan (cs.drop (length - 1)) (offset + length) with
    | error stray =>
      rw [hrest] at h
      cases h
    | ok rest =>
      rw [hrest] at h
      cases h
      exact List.forall_mem_cons.2 ⟨munch_wellFormed hmunch, ih hrest⟩

theorem lex_wellFormed {source : String} {lexemes : List Lexeme} (h : lex source = .ok lexemes) :
    ∀ l ∈ lexemes, l.token.WellFormed :=
  scan_wellFormed (lex_eq_ok.1 h)

end Heightfield
