import Heightfield.Proofs.Grammar.Refusal
import Mathlib.Data.List.Nodup
import Mathlib.Data.String.Basic

/-! What a parse error says to have been expected: each kind of token that an expression could go on
with where the error stands, and no other. At the end of the input no operators are told. -/

namespace Heightfield

namespace SyntaxError

section Normalize

variable {texts : List String} {text : String}

theorem mem_eraseReps_loop (rest : List String) (a : String) (done : List String) :
    text ∈ List.eraseRepsBy.loop (· == ·) a rest done ↔ text ∈ done ∨ text ∈ a :: rest := by
  induction rest generalizing a done with
  | nil => simp [List.eraseRepsBy.loop, or_comm]
  | cons b rest ih =>
    rw [List.eraseRepsBy.loop]
    by_cases hab : a = b
    · subst hab
      simp [ih]
    · have hne : (a == b) = false := beq_eq_false_iff_ne.2 hab
      simp only [hne, ih, List.mem_cons]
      rw [or_assoc, or_left_comm]

/-- What is done and the item at hand are sorted already; each item kept is less than the next. -/
theorem eraseReps_loop_sorted {rest : List String} {a : String} {done : List String}
    (hdone : (done.reverse ++ [a]).Pairwise (· < ·)) (hrest : (a :: rest).Pairwise (· ≤ ·)) :
    (List.eraseRepsBy.loop (· == ·) a rest done).Pairwise (· < ·) := by
  induction rest generalizing a done with
  | nil => simpa [List.eraseRepsBy.loop] using hdone
  | cons b rest ih =>
    obtain ⟨hle, hrest'⟩ := List.pairwise_cons.1 hrest
    rw [List.eraseRepsBy.loop]
    by_cases hab : a = b
    · subst hab
      simpa using ih hdone hrest'
    · have hne : (a == b) = false := beq_eq_false_iff_ne.2 hab
      have hlt : a < b := lt_of_le_of_ne (hle b List.mem_cons_self) hab
      simp only [hne]
      refine ih ?_ hrest'
      rw [List.reverse_cons]
      refine List.pairwise_append.2 ⟨hdone, List.pairwise_singleton _ _, fun c hc d hd => ?_⟩
      cases List.mem_singleton.1 hd
      rcases List.mem_append.1 hc with hc | hc
      · exact ((List.pairwise_append.1 hdone).2.2 c hc a (List.mem_singleton_self a)).trans hlt
      · cases List.mem_singleton.1 hc
        exact hlt

theorem mem_normalize : text ∈ normalize texts ↔ text ∈ texts := by
  have hsort : (text ∈ texts.mergeSort fun a b => decide (a ≤ b)) ↔ text ∈ texts :=
    List.mem_mergeSort
  rw [← hsort, normalize]
  cases texts.mergeSort fun a b => decide (a ≤ b) with
  | nil => rfl
  | cons a rest => exact (mem_eraseReps_loop rest a []).trans (or_iff_right List.not_mem_nil)

theorem normalize_sorted (texts : List String) : (normalize texts).Pairwise (· < ·) := by
  have hsorted : (texts.mergeSort fun a b => decide (a ≤ b)).Pairwise (· ≤ ·) := by
    refine (List.pairwise_mergeSort ?_ ?_ texts).imp of_decide_eq_true
    · intro a b c hab hbc
      exact decide_eq_true ((of_decide_eq_true hab).trans (of_decide_eq_true hbc))
    · intro a b
      simpa using le_total a b
  rw [normalize]
  cases h : texts.mergeSort fun a b => decide (a ≤ b) with
  | nil => exact .nil
  | cons a rest =>
    rw [h] at hsorted
    exact eraseReps_loop_sorted (List.pairwise_singleton _ _) hsorted

end Normalize

theorem ofFurthest_expected (f : Furthest) (lexemes : List Lexeme) (source : String) :
    (ofFurthest f lexemes source).expected = normalize (f.expected.map Expected.describe) := by
  unfold ofFurthest
  split <;> rfl

end SyntaxError

namespace Expected

/-- The tokens that are spelled in one way only. -/
def fixedTokens : List Token :=
  Keyword.all.map .keyword ++ Op.all.map .operator ++ [.equals, .openParen, .closeParen, .comma]

def kinds : List Expected := [.endOfInput, .identifier, .number] ++ fixedTokens.map .fixed

theorem ofToken_mem_kinds (t : Token) : ofToken t ∈ kinds := by
  cases t with
  | keyword word => cases word <;> decide
  | operator op => cases op <;> decide
  | ident name => exact List.mem_cons_of_mem _ List.mem_cons_self
  | number digits => exact List.mem_cons_of_mem _ (List.mem_cons_of_mem _ List.mem_cons_self)
  | equals | openParen | closeParen | comma => decide

theorem describe_injective {x y : Expected} (hx : x ∈ kinds) (hy : y ∈ kinds)
    (h : x.describe = y.describe) : x = y := by
  have hnodup : (kinds.map describe).Nodup := by decide +kernel
  exact List.inj_on_of_nodup_map hnodup hx hy h

/-- The kinds that are told where the input ends: all but operators, and the end itself. -/
def atEnd : Expected → Bool
  | .identifier | .number => true
  | .fixed t => t.isPunctuation
  | .endOfInput => false

end Expected

open Heightfield.Grammar Heightfield.Parser

/-- The tokens are those of an expression. -/
def Grammar.Complete (ts : List Token) : Prop := ∃ p : Phrase .standard, p.tokens = ts

/-- Behind `ts` an expression can go on with a token of the kind `x`, or it can end there. -/
def Expected.Admitted (ts : List Token) (x : Expected) : Prop :=
  (∃ t, ofToken t = x ∧ Continuable (ts ++ [t])) ∨ x = .endOfInput ∧ Complete ts

theorem Expected.Admitted.mem_kinds {ts : List Token} {x : Expected} (h : x.Admitted ts) :
    x ∈ kinds := by
  rcases h with ⟨t, rfl, -⟩ | ⟨rfl, -⟩
  · exact ofToken_mem_kinds t
  · exact List.mem_cons_self

theorem Furthest.mem_of_refuse {f : Furthest} {left : Nat} {expected : List Expected}
    {x : Expected} (h : x ∈ (f.refuse left expected).expected) :
    x ∈ expected ∧ (f.refuse left expected).left = left ∨
      x ∈ f.expected ∧ (f.refuse left expected).left = f.left := by
  unfold refuse at h ⊢
  split at h
  · next hlt =>
    rw [if_pos hlt]
    exact .inl ⟨h, rfl⟩
  · next hge =>
    rw [if_neg hge]
    split at h
    · next heq =>
      rw [if_pos heq]
      exact (List.mem_append.1 h).symm.imp (⟨·, rfl⟩) (⟨·, heq⟩)
    · next hne =>
      rw [if_neg hne]
      exact .inr ⟨h, rfl⟩

section

variable {lexemes : List Lexeme} {f : Furthest} {us vs : List Token} {x : Expected}
  (hfail : program .standard anyCore (lexemes.length + 1) ⟨lexemes, 0⟩ ⟨lexemes.length, []⟩ =
    (none, f))
  (hsplit : lexemes.map (·.token) = us ++ vs) (hvs : vs.length = f.left)

include hfail hsplit hvs

theorem admitted_of_told (hx : x ∈ f.expected) :
    x.Admitted us ∧ (f.left = 0 → x.atEnd = true) := by
  have hreads := expression_reads .standard (lexemes.length + 1)
  have hrefused := hreads.refused ⟨lexemes, 0⟩ ⟨lexemes.length, []⟩
  have hbehind : ∀ {us' vs' : List Token}, lexemes.map (·.token) = us' ++ vs' →
      vs'.length = f.left → us' = us := fun h h' =>
    (List.append_inj' (h.symm.trans hsplit) (h'.trans hvs.symm)).1
  have hnext : ∀ {f' : Furthest}, Refused (Viable (IsPhrase .standard) (lexemes.map (·.token)))
      ⟨lexemes.length, []⟩ f' → f'.left = f.left → x ∈ f'.expected →
        x.Admitted us ∧ (f.left = 0 → x.atEnd = true) := by
    intro f' h hleft hx
    rcases h.next x hx with ⟨-, hnil⟩ | ⟨t, rfl, ⟨us', vs', ws, htokens, hvs', p, hp⟩, hend⟩
    · cases hnil
    · obtain rfl := hbehind htokens (hvs'.trans hleft)
      refine ⟨.inl ⟨t, rfl, p, ws, by rw [hp, List.append_assoc]⟩, fun hzero => ?_⟩
      have hop := hend (hleft.trans hzero)
      cases t with
      | operator op => cases hop
      | _ => rfl
  obtain hr | ⟨e, d, f₁, hr, hpos, rfl⟩ := program_eq_none hfail
  · rw [hr] at hrefused
    exact hnext hrefused rfl hx
  · rw [hr] at hrefused
    rcases Furthest.mem_of_refuse hx with ⟨hx, hleft⟩ | ⟨hx, hleft⟩
    · -- the expression that was read ends where the record stands
      obtain ⟨ts, htokens, p, rfl⟩ := hreads.read hr
      have hd : d.tokens.length = d.rest.length := List.length_map _
      obtain rfl := hbehind htokens (hd.trans hleft.symm)
      refine ⟨.inr ⟨List.mem_singleton.1 hx, p, rfl⟩, fun hzero => ?_⟩
      omega
    · exact hnext hrefused hleft.symm hx

theorem told_of_admitted (hx : x.Admitted us) (hend : f.left = 0 → x.atEnd = true) :
    x ∈ f.expected := by
  rcases hx with ⟨t, rfl, p, ws, hp⟩ | ⟨rfl, p, hp⟩
  · have hp' : p.tokens = us ++ t :: ws := by rw [← hp, List.append_assoc, List.singleton_append]
    rcases tells_of_derivable hfail hsplit hp' with hlt | ⟨-, hfirst | ⟨rfl, op, rest, heq⟩⟩
    · omega
    · exact hfirst
    · cases heq
      cases hend hvs.symm
  · have hp' : p.tokens = us ++ [] := by rw [hp, List.append_nil]
    rcases tells_of_derivable hfail hsplit hp' with hlt | ⟨-, hfirst | ⟨-, op, rest, heq⟩⟩
    · omega
    · exact hfirst
    · cases heq

theorem told_iff_admitted :
    x ∈ f.expected ↔ x.Admitted us ∧ (f.left = 0 → x.atEnd = true) :=
  ⟨admitted_of_told hfail hsplit hvs, fun h => told_of_admitted hfail hsplit hvs h.1 h.2⟩

end

/-- The error of a text that does not parse stands at its `k`-th token, or at its end for `k` the
number of tokens; and it lists, in order, the kinds that the first `k` tokens admit. -/
theorem parse_error_expects_admitted {source : String} {lexemes : List Lexeme}
    {error : SyntaxError} (hlex : lex source = .ok lexemes) (hparse : parse source = .error error) :
    ∃ k, k ≤ lexemes.length ∧ (∀ h : k < lexemes.length, error.span = lexemes[k].span) ∧
      (k = lexemes.length → error.span = ⟨source.utf8ByteSize, source.utf8ByteSize + 1⟩) ∧
      error.expected.Pairwise (· < ·) ∧
      (∀ text ∈ error.expected, ∃ x ∈ Expected.kinds, x.describe = text) ∧
      ∀ x ∈ Expected.kinds, x.describe ∈ error.expected ↔
        x.Admitted ((lexemes.map (·.token)).take k) ∧ (k = lexemes.length → x.atEnd = true) := by
  have htokens : parseTokens .standard anyCore lexemes source = .error error := by
    rwa [parse, hlex] at hparse
  rw [parseTokens] at htokens
  cases hr : program .standard anyCore (lexemes.length + 1) ⟨lexemes, 0⟩ ⟨lexemes.length, []⟩ with
  | mk answer f =>
    rw [hr] at htokens
    cases answer with
    | some r => cases htokens
    | none =>
      cases htokens
      obtain ⟨us, vs, hsplit, hvs, -⟩ := continuable_before hr
      have hlen : us.length + f.left = lexemes.length := by
        rw [← hvs, ← List.length_append, ← hsplit, List.length_map]
      have htold := @told_iff_admitted lexemes f us vs
      have hzero : f.left = 0 ↔ us.length = lexemes.length := by omega
      refine ⟨us.length, by omega, fun h => ?_, fun h => ?_, ?_, fun text htext => ?_,
        fun x hx => ?_⟩
      · rw [SyntaxError.ofFurthest_of_lt hlen source h]
        rfl
      · rw [SyntaxError.ofFurthest_of_eq hlen source h]
        rfl
      · rw [SyntaxError.ofFurthest_expected]
        exact SyntaxError.normalize_sorted _
      · rw [SyntaxError.ofFurthest_expected, SyntaxError.mem_normalize] at htext
        obtain ⟨x, hx, rfl⟩ := List.mem_map.1 htext
        exact ⟨x, ((htold hr hsplit hvs).1 hx).1.mem_kinds, rfl⟩
      · rw [SyntaxError.ofFurthest_expected, SyntaxError.mem_normalize, hsplit, List.take_left,
          ← hzero, ← htold hr hsplit hvs]
        refine ⟨fun h => ?_, List.mem_map_of_mem⟩
        obtain ⟨y, hy, hxy⟩ := List.mem_map.1 h
        have hkind := ((htold hr hsplit hvs).1 hy).1.mem_kinds
        rwa [Expected.describe_injective hx hkind hxy.symm]

theorem unfinishedBinding_expects : ∃ lexemes error k, lex "let a = 1" = .ok lexemes ∧
    parse "let a = 1" = .error error ∧ k ≤ lexemes.length ∧ error.expected.Pairwise (· < ·) ∧
    ∀ x ∈ Expected.kinds, x.describe ∈ error.expected ↔
      x.Admitted ((lexemes.map (·.token)).take k) ∧ (k = lexemes.length → x.atEnd = true) := by
  have hlexes : (lex "let a = 1").isOk = true := by decide +kernel
  have hfails : (parse "let a = 1").isOk = false := by decide +kernel
  obtain ⟨lexemes, hlex⟩ := exists_of_isOk hlexes
  cases hparse : parse "let a = 1" with
  | ok e =>
    rw [hparse] at hfails
    cases hfails
  | error error =>
    obtain ⟨k, hk, -, -, hsorted, -, hadmitted⟩ := parse_error_expects_admitted hlex hparse
    exact ⟨lexemes, error, k, hlex, rfl, hk, hsorted, hadmitted⟩

/-- Operators could come there as well. -/
example : (match parse "let a = 1" with | .ok _ => [] | .error error => error.expected) =
    ["'in'"] := by
  decide +kernel

end Heightfield
