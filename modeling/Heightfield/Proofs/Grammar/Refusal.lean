import Heightfield.Proofs.Grammar.Abreast
import Heightfield.Proofs.Grammar.Acceptance
import Heightfield.Proofs.Token.Spelling

/-! Where a text does not parse, the error stands at the first token that no expression goes on
with. The furthest refusal is not behind that token, since what is read up to a refusal can be gone
on with; and it is not before it, since an expression that goes on there would have been read. -/

namespace Heightfield

namespace Parser

variable {α β : Type} {p : Parser α} {q : α → Parser β}

theorem bind_eq_none {c : Cursor} {f f' : Furthest} (h : (p >>= q) c f = (none, f')) :
    p c f = (none, f') ∨ ∃ x d f₁, p c f = (some (x, d), f₁) ∧ q x d f₁ = (none, f') := by
  rw [bind_eq] at h
  cases hr : p c f with
  | mk answer f₁ =>
    rw [hr] at h
    cases answer with
    | none =>
      cases h
      exact .inl rfl
    | some r => exact .inr ⟨r.1, r.2, f₁, rfl, h⟩

theorem endOfInput_eq_none {c : Cursor} {f f' : Furthest} (h : endOfInput c f = (none, f')) :
    0 < c.rest.length ∧ f' = f.refuse c.rest.length [.endOfInput] := by
  unfold endOfInput at h
  split at h
  · cases h
  · next hrest =>
    cases h
    exact ⟨List.length_pos_iff.2 fun hnil => hrest (List.isEmpty_iff.2 hnil), rfl⟩

/-- A program fails where its expression does, or because something is left behind that. -/
theorem program_eq_none {table : OperatorTable} {depth : Nat} {core : Parser Expr → Parser Expr}
    {c : Cursor} {f f' : Furthest} (h : program table core depth c f = (none, f')) :
    expression table core depth c f = (none, f') ∨
      ∃ e d f₁, expression table core depth c f = (some (e, d), f₁) ∧
        0 < d.rest.length ∧ f' = f₁.refuse d.rest.length [.endOfInput] := by
  refine (bind_eq_none h).imp_right ?_
  rintro ⟨e, d, f₁, hr, h⟩
  obtain h | ⟨_, _, _, _, h⟩ := bind_eq_none h
  · exact ⟨e, d, f₁, hr, endOfInput_eq_none h⟩
  · cases h

end Parser

open Heightfield.Grammar Heightfield.Parser

/-- The tokens can be gone on with to an expression. -/
def Grammar.Continuable (ts : List Token) : Prop := ∃ p : Phrase .standard, ts <+: p.tokens

section

variable {lexemes : List Lexeme} {f : Furthest}
  (hfail : program .standard anyCore (lexemes.length + 1) ⟨lexemes, 0⟩ ⟨lexemes.length, []⟩ =
    (none, f))

include hfail

/-- Where a text does not parse, and its first tokens could be gone on with by `b`, the furthest
refusal does not stand before that. -/
theorem tells_of_derivable {v a b : List Token} (hv : lexemes.map (·.token) = v ++ a)
    {p : Phrase .standard} (hp : p.tokens = v ++ b) : f.Tells a b := by
  obtain ⟨q, hq, htokens⟩ := p.exists_normal
  rw [hp] at htokens
  let c : Cursor := ⟨(v ++ b).map (⟨·, default⟩), 0⟩
  have hc : c.tokens = v ++ b := by simp [c, Cursor.tokens, Function.comp_def]
  have hdepth : c.rest.length < (v ++ b).length + 1 := by simp [c]
  have htakes := expression_takes .standard ((v ++ b).length + 1) q hq
    (by rw [htokens]; omega) [] stops_nil
  rw [htokens, List.append_nil] at htakes
  obtain ⟨e', d', f', hr', hd', -⟩ := htakes c f hc
  have h := (expression_follows .standard (lexemes.length + 1) ((v ++ b).length + 1)).abreast
    (c := ⟨lexemes, 0⟩) ⟨lexemes.length, []⟩ f hv hc (Nat.lt_succ_self _) hdepth
  rw [hr'] at h
  obtain hr | ⟨e, d, f₁, hr, -, rfl⟩ := program_eq_none hfail
  · rw [hr] at h
    cases h with
    | told h => exact h
  · rw [hr] at h
    cases h with
    | told h => exact h.of_grows (f₁.grows_refuse _ _)
    | past h =>
      refine .inl ?_
      rw [Furthest.refuse_left]
      omega
    | reached w hw hw' =>
      rw [hd', List.nil_eq, List.append_eq_nil_iff] at hw'
      obtain ⟨rfl, rfl⟩ := hw'
      rw [Cursor.length_rest hw, List.length_nil, Nat.zero_add]
      exact f₁.tells_refuse (.inl (List.mem_singleton_self _))

/-- What stands before the furthest refusal can be gone on with. -/
theorem continuable_before : ∃ us vs, lexemes.map (·.token) = us ++ vs ∧ vs.length = f.left ∧
    Continuable us := by
  have hreads := expression_reads .standard (lexemes.length + 1)
  have hplace : ∀ {f' : Furthest}, Refused (Viable (IsPhrase .standard) (lexemes.map (·.token)))
      ⟨lexemes.length, []⟩ f' → ∃ us vs, lexemes.map (·.token) = us ++ vs ∧
        vs.length = f'.left ∧ Continuable us := by
    intro f' h
    rcases h.place with hleft | ⟨us, vs, ws, htokens, hvs, p, hp⟩
    · obtain ⟨_, p, -⟩ := hreads.word
      exact ⟨[], _, rfl, by rw [hleft, List.length_map], p, List.nil_prefix⟩
    · exact ⟨us, vs, htokens, hvs, p, ⟨ws, hp.symm⟩⟩
  have hrefused := hreads.refused ⟨lexemes, 0⟩ ⟨lexemes.length, []⟩
  obtain hr | ⟨e, d, f₁, hr, -, rfl⟩ := program_eq_none hfail
  · rw [hr] at hrefused
    exact hplace hrefused
  · rw [hr] at hrefused
    rw [Furthest.refuse_left]
    rcases Nat.le_total d.rest.length f₁.left with hle | hle
    · obtain ⟨ts, htokens, p, rfl⟩ := hreads.read hr
      refine ⟨p.tokens, d.tokens, htokens, ?_, p, List.prefix_rfl⟩
      rw [Nat.min_eq_left hle, Cursor.tokens, List.length_map]
    · rw [Nat.min_eq_right hle]
      exact hplace hrefused

end

section

variable {f : Furthest} {lexemes : List Lexeme} {k : Nat} (hk : k + f.left = lexemes.length)
  (source : String)

include hk

theorem SyntaxError.ofFurthest_of_lt (h : k < lexemes.length) : ofFurthest f lexemes source =
    .of (.unexpectedToken (some lexemes[k].token.describe)) lexemes[k].span
      (f.expected.map Expected.describe) source := by
  have hleft : lexemes.length - f.left = k := by omega
  simp only [ofFurthest, hleft, List.getElem?_eq_getElem h]

theorem SyntaxError.ofFurthest_of_eq (h : k = lexemes.length) : ofFurthest f lexemes source =
    .of (.unexpectedToken none) ⟨source.utf8ByteSize, source.utf8ByteSize + 1⟩
      (f.expected.map Expected.describe) source := by
  have hleft : lexemes.length - f.left = lexemes.length := by omega
  simp only [ofFurthest, hleft, List.getElem?_eq_none (Nat.le_refl _)]

end

end Heightfield
