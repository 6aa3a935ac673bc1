import Heightfield.Proofs.Token.Spells
import Heightfield.Proofs.Token.Tiling

/-! One name of a text replaced by another. No other token changes: those before it do not look
past the first character of a name, and those behind it only move. -/

namespace Heightfield

open Lexer Text

/-- Whatever goes on with a match and could begin a word goes on with it like any other. -/
theorem Matched.swap {m : List Char} {x a : Char} (h : Matched (m ++ [x]))
    (hx : startsWord x = true) (ha : startsWord a = true) : Matched (m ++ [a]) := by
  have ha' : a.isAlpha = true ∨ a = '_' := by
    have hone : IsWord a [] := ⟨ha, nofun⟩
    exact (isWord_iff.1 hone).1
  have hword : ∀ {c cs}, IsWord c cs → m ++ [x] = c :: cs → Matched (m ++ [a]) := by
    intro c cs hword heq
    cases m with
    | nil => exact .word ha' nofun
    | cons d m =>
      cases heq
      obtain ⟨hc, hcs⟩ := isWord_iff.1 hword
      refine .word hc (List.forall_mem_append.2 ⟨fun d hd => ?_, ?_⟩)
      · exact hcs d (List.mem_append_left _ hd)
      · exact List.forall_mem_singleton.2 (ha'.imp_left fun h => by simp [Char.isAlphanum, h])
  generalize hm : m ++ [x] = m' at h
  have hlast : m'.getLast? = some x := by
    rw [← hm]
    exact List.getLast?_concat
  have hdigit : ¬ x.isDigit = true := fun hd => not_startsWord_of_isDigit hd hx
  cases h with
  | keyword word =>
    obtain ⟨c, cs, hspelling, hcs⟩ := keyword_isWord word
    exact hword hcs (hm.trans hspelling)
  | word hc hcs => exact hword (isWord_iff.2 ⟨hc, hcs⟩) hm
  | operator op => cases op <;> cases hlast <;> cases hx
  | equals | openParen | closeParen | comma =>
    cases hlast
    cases hx
  | whole h hne => exact absurd (h.digits x (List.mem_of_getLast? hlast)) hdigit
  | @pointed ds fs h hfs =>
    rw [List.getLast?_append_cons] at hlast
    rcases List.mem_cons.1 (List.mem_of_getLast? hlast) with rfl | hmem
    · cases hx
    · exact absurd (hfs x hmem) hdigit

namespace Lexer

variable {text front rest tail : List Char} {offset : Nat} {lexemes others : List Lexeme}
  {a b : Char}

/-- The tokens before a word are those before any other word. -/
theorem Scans.before_word (h : Scans text offset lexemes (a :: tail))
    (ht : text = front ++ a :: tail) (ha : startsWord a = true) (hb : startsWord b = true)
    (tail' : List Char) : Scans (front ++ b :: tail') offset lexemes (b :: tail') := by
  generalize hrest : a :: tail = rest at h
  induction h generalizing front with
  | stop =>
    subst hrest
    rw [List.self_eq_append_left] at ht
    subst ht
    exact .stop
  | blank hblank hscans ih =>
    obtain ⟨front', rfl, -⟩ := hscans.read
    subst hrest
    rw [← List.cons_append, List.append_left_inj] at ht
    subst ht
    exact .blank hblank (ih rfl rfl)
  | @token c ds cs offset t lexemes rest hspelling hmunch hscans ih =>
    obtain ⟨front', rfl, -⟩ := hscans.read
    subst hrest
    rw [← List.append_assoc, ← List.cons_append, List.append_left_inj] at ht
    subst ht
    have hmunch' : munch c (ds ++ (front' ++ b :: tail')) = some t := by
      refine munch_before hspelling hmunch fun x hx hmatched => ?_
      cases front' with
      | nil =>
        cases hx
        exact ⟨a, rfl, hmatched.swap (m := c :: ds) hb ha⟩
      | cons d front' =>
        cases hx
        exact ⟨x, rfl, hmatched⟩
    have hnext := Scans.token hspelling hmunch' (ih rfl rfl)
    rwa [← List.append_assoc, ← List.cons_append] at hnext

theorem Scans.start_le (h : Scans text offset lexemes rest) :
    ∀ l ∈ lexemes, offset ≤ l.span.start := by
  induction h with
  | stop => nofun
  | blank _ _ ih => exact fun l hl => Nat.le_of_succ_le (ih l hl)
  | token _ _ _ ih =>
    refine List.forall_mem_cons.2 ⟨Nat.le_refl _, fun l hl => ?_⟩
    exact Nat.le_trans (Nat.le_add_right _ _) (ih l hl)

/-- The tokens of a text, and behind them those of what is left. -/
theorem Scans.append (h : Scans text offset lexemes tail) (ht : text = front ++ tail)
    (h' : Scans tail (offset + byteLength front) others rest) :
    Scans text offset (lexemes ++ others) rest := by
  induction h generalizing front with
  | stop =>
    rw [List.self_eq_append_left] at ht
    subst ht
    exact h'
  | blank hblank hscans ih =>
    obtain ⟨front', rfl, -⟩ := hscans.read
    rw [← List.cons_append, List.append_left_inj] at ht
    subst ht
    refine .blank hblank (ih rfl ?_)
    rwa [Nat.add_assoc, ← byteLength_blank hblank]
  | @token c ds cs offset t lexemes rest hspelling hmunch hscans ih =>
    obtain ⟨front', rfl, -⟩ := hscans.read
    rw [← List.append_assoc, ← List.cons_append, List.append_left_inj] at ht
    subst ht
    refine .token hspelling hmunch (ih rfl ?_)
    rwa [Nat.add_assoc, ← byteLength_token hspelling hmunch]

/-- A token with the text before it and the text behind it. -/
theorem Scans.cut_around {before behind : List Lexeme} {l : Lexeme}
    (h : Scans text offset (before ++ l :: behind) rest) : ∃ front c ds back,
    text = front ++ c :: (ds ++ back) ∧ l.token.spelling.toList = c :: ds ∧
      munch c (ds ++ back) = some l.token ∧
      l.span = ⟨offset + byteLength front, offset + byteLength front + l.token.spelling.length⟩ ∧
      Scans text offset before (c :: (ds ++ back)) ∧ Scans back l.span.stop behind rest := by
  obtain ⟨front, back, rfl, hstart, hbefore, hback⟩ := h.cut_before
  generalize hoffset : l.span.start = start at hback
  cases hback with
  | blank hblank hscans =>
    have hle := hscans.start_le l List.mem_cons_self
    omega
  | @token c ds back _ t _ _ hspelling hmunch hscans =>
    have hspan : start = offset + byteLength front := hstart
    subst hspan
    exact ⟨front, c, ds, back, rfl, hspelling, hmunch, rfl, hbefore, hscans⟩

/-- A word is read with all that goes on with it. -/
theorem ends_of_munch {c : Char} {ds back : List Char} {name : String}
    (hspelling : name.toList = c :: ds) (h : munch c (ds ++ back) = some (.ident name)) :
    (Token.ident name).Ends back := by
  intro x hx
  obtain ⟨tail, rfl⟩ := List.head?_eq_some_iff.1 hx
  obtain ⟨⟨_, _, heq, hword⟩, -⟩ := munch_wellFormed h
  rw [hspelling] at heq
  cases heq
  by_contra hcontinues
  have hlonger : IsWord c (ds ++ [x]) := by
    refine ⟨hword.starts, List.forall_mem_append.2 ⟨hword.continues, ?_⟩⟩
    exact List.forall_mem_singleton.2 (Bool.eq_true_of_not_eq_false hcontinues)
  obtain ⟨hc, hds⟩ := isWord_iff.1 hlonger
  have hle := munch_longest h (.word hc hds) ⟨tail, by simp⟩
  rw [Token.spelling, ← String.length_toList, hspelling] at hle
  simp at hle

end Lexer

/-- Where a name gives way to another, the tokens before it stay, and those behind it stay the same
tokens. -/
theorem lex_replace {source name other : String} {before behind : List Lexeme} {l : Lexeme}
    (h : lex source = .ok (before ++ l :: behind)) (hl : l.token = .ident name)
    (hother : (Token.ident other).WellFormed) : ∃ front back : String,
    source = front ++ (name ++ back) ∧
      l.span = ⟨front.utf8ByteSize, front.utf8ByteSize + name.utf8ByteSize⟩ ∧
      ∃ l' behind', lex (front ++ (other ++ back)) = .ok (before ++ l' :: behind') ∧
        l'.token = .ident other ∧ l'.span.start = l.span.start ∧
        behind'.map (·.token) = behind.map (·.token) := by
  obtain ⟨front, c, ds, back, hsource, hspelling, hmunch, hspan, hbefore, hbehind⟩ :=
    (scans_of_ok (lex_eq_ok.1 h)).cut_around
  rw [hl] at hspelling hmunch hspan
  have hlength : name.utf8ByteSize = name.length := by
    rw [← byteLength_toList, show name.toList = c :: ds from hspelling]
    exact byteLength_spelling hspelling hmunch
  obtain ⟨⟨_, _, heq, hword⟩, -⟩ := munch_wellFormed hmunch
  cases (show name.toList = c :: ds from hspelling).symm.trans heq
  obtain ⟨⟨d, es, hother', hword'⟩, -⟩ := id hother
  have hends : (Token.ident name).Ends back := ends_of_munch hspelling hmunch
  obtain ⟨_, _, heq', hmunch'⟩ := munch_spelling (.ident other) hother hends
  cases (show other.toList = d :: es from hother').symm.trans heq'
  obtain ⟨behind', hbehind', htokens⟩ := hbehind.moved (byteLength front + other.length)
  have hfront := hbefore.before_word hsource hword.starts hword'.starts (es ++ back)
  have hscans := hfront.append rfl (.token heq' hmunch' (by rwa [Nat.zero_add]))
  rw [Nat.zero_add] at hscans hspan
  let span : Span := ⟨byteLength front, byteLength front + other.length⟩
  refine ⟨.ofList front, .ofList back, ?_, ?_, ⟨.ident other, span⟩, behind', ?_, rfl, ?_, htokens⟩
  · rw [← String.toList_inj, hsource, String.toList_append, String.toList_append,
      String.toList_ofList, String.toList_ofList, heq]
    rfl
  · rw [hspan, utf8ByteSize_ofList, hlength]
    rfl
  · rw [lex_eq_ok, String.toList_append, String.toList_append, String.toList_ofList,
      String.toList_ofList, hother']
    exact hscans.scan
  · rw [hspan]

end Heightfield
