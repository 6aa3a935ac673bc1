import Heightfield.Proofs.Token.Munch

/-! The patterns of the lexer. The token that is read at the head of a text is the longest match of
any pattern there; nothing is read only where no pattern matches more than a point alone. -/

namespace Heightfield

open Lexer

/-- The texts that the patterns match. A point alone is one of them, though it is no token. -/
inductive Matched : List Char → Prop
  | keyword (word : Keyword) : Matched word.spelling.toList
  | operator (op : Op) : Matched op.symbol.toList
  | equals : Matched ['=']
  | openParen : Matched ['(']
  | closeParen : Matched [')']
  | comma : Matched [',']
  /-- `[A-Za-z_][A-Za-z0-9_]*` -/
  | word {c cs} (hc : c.isAlpha = true ∨ c = '_')
      (hcs : ∀ d ∈ cs, d.isAlphanum = true ∨ d = '_') : Matched (c :: cs)
  /-- `0|[1-9][0-9]*` -/
  | whole {ds} (h : Decimal.Whole ds) (hne : ds ≠ []) : Matched ds
  /-- `(0|[1-9][0-9]*)?\.[0-9]*` -/
  | pointed {ds fs} (h : Decimal.Whole ds) (hfs : ∀ c ∈ fs, c.isDigit = true) :
      Matched (ds ++ '.' :: fs)

theorem isWord_iff {c : Char} {cs : List Char} : IsWord c cs ↔
    (c.isAlpha = true ∨ c = '_') ∧ ∀ d ∈ cs, d.isAlphanum = true ∨ d = '_' := by
  have hstarts : startsWord c = true ↔ c.isAlpha = true ∨ c = '_' := by simp [startsWord]
  have hcontinues : ∀ d, continuesWord d = true ↔ d.isAlphanum = true ∨ d = '_' := by
    simp [continuesWord]
  constructor
  · intro h
    exact ⟨hstarts.1 h.starts, fun d hd => (hcontinues d).1 (h.continues d hd)⟩
  · rintro ⟨hc, hcs⟩
    exact ⟨hstarts.2 hc, fun d hd => (hcontinues d).2 (hcs d hd)⟩

theorem IsNumber.matched {cs : List Char} (h : IsNumber cs) : Matched cs := by
  cases h with
  | whole hwhole hne => exact .whole hwhole hne
  | pointed hwhole hfs _ => exact .pointed hwhole hfs

theorem Token.WellFormed.matched {t : Token} (h : t.WellFormed) : Matched t.spelling.toList := by
  cases t with
  | keyword word => exact .keyword word
  | operator op => exact .operator op
  | equals => exact .equals
  | openParen => exact .openParen
  | closeParen => exact .closeParen
  | comma => exact .comma
  | number digits => exact IsNumber.matched h
  | ident name =>
    obtain ⟨⟨c, cs, hname, hword⟩, -⟩ := h
    obtain ⟨hc, hcs⟩ := isWord_iff.1 hword
    rw [Token.spelling, hname]
    exact .word hc hcs

theorem Decimal.Whole.initial {ds p : List Char} (h : Decimal.Whole ds) (hp : p <+: ds) :
    Decimal.Whole p where
  digits c hc := h.digits c (hp.subset hc)
  zero hzero := by
    obtain ⟨rest, rfl⟩ := List.head?_eq_some_iff.1 hzero
    obtain ⟨tail, rfl⟩ := hp
    have hds := h.zero rfl
    simp at hds
    rw [hds.1]

/-- What begins a match, with at least two characters, is a match. -/
theorem Matched.initial {m p : List Char} (h : Matched m) (hp : p <+: m) (hlen : 2 ≤ p.length) :
    Matched p := by
  have hword : ∀ {c cs}, IsWord c cs → p <+: c :: cs → Matched p := by
    intro c cs hword hp
    obtain ⟨d, ds, rfl⟩ := List.exists_cons_of_length_pos (Nat.lt_of_lt_of_le Nat.two_pos hlen)
    obtain ⟨rfl, hds⟩ := List.cons_prefix_cons.1 hp
    obtain ⟨hc, hcs⟩ := isWord_iff.1 hword
    exact .word hc fun d hd => hcs d (hds.subset hd)
  have hwhole : m.length ≤ p.length → Matched p := by
    intro hle
    rwa [hp.eq_of_length_le hle]
  cases h with
  | keyword word =>
    obtain ⟨c, cs, hspelling, hcs⟩ := Lexer.keyword_isWord word
    rw [hspelling] at hp
    exact hword hcs hp
  | word hc hcs => exact hword (isWord_iff.2 ⟨hc, hcs⟩) hp
  | operator op =>
    refine hwhole (Nat.le_trans ?_ hlen)
    cases op <;> decide
  | equals | openParen | closeParen | comma => exact hwhole (Nat.le_of_lt hlen)
  | whole h hne => exact .whole (h.initial hp) (List.ne_nil_of_length_pos (by omega))
  | @pointed ds fs h hfs =>
    rcases Nat.lt_or_ge ds.length p.length with hlt | hle
    · obtain ⟨q, rfl⟩ := List.prefix_of_prefix_length_le (List.prefix_append ds _) hp
        (Nat.le_of_lt hlt)
      cases q with
      | nil => simp at hlt
      | cons d q =>
        obtain ⟨rfl, hq⟩ := List.cons_prefix_cons.1 ((List.prefix_append_right_inj ds).1 hp)
        exact .pointed h fun c hc => hfs c (hq.subset hc)
    · have hds := List.prefix_of_prefix_length_le hp (List.prefix_append ds _) hle
      exact .whole (h.initial hds) (List.ne_nil_of_length_pos (by omega))

namespace Lexer

theorem length_le_takeWhile {p : Char → Bool} {cs : List Char} (hcs : ∀ c ∈ cs, p c = true)
    (rest : List Char) : cs.length ≤ ((cs ++ rest).takeWhile p).length := by
  rw [List.takeWhile_append_of_pos hcs, List.length_append]
  omega

/-- A word is read with all that goes on with it. -/
theorem munch_reaches_word {c : Char} {cs : List Char} (h : IsWord c cs) (rest : List Char) :
    ∃ t, munch c (cs ++ rest) = some t ∧ cs.length + 1 ≤ t.spelling.length := by
  refine ⟨ofWord (.ofList (c :: (cs ++ rest).takeWhile continuesWord)), ?_, ?_⟩
  · unfold munch
    rw [if_pos h.starts]
  · rw [ofWord_spelling, String.length_ofList, List.length_cons]
    exact Nat.succ_le_succ (length_le_takeWhile h.continues rest)

theorem length_le_fraction {fs : List Char} (hfs : ∀ c ∈ fs, c.isDigit = true)
    (rest : List Char) : fs.length + 1 ≤ (fraction ('.' :: (fs ++ rest))).length := by
  rw [fraction, List.length_cons]
  exact Nat.succ_le_succ (length_le_takeWhile hfs rest)

theorem length_le_numeral {c : Char} {ds : List Char} (h : Decimal.Whole (c :: ds))
    (rest : List Char) : ds.length + 1 ≤ (numeral c (ds ++ rest)).length := by
  have hwhole : ds.length ≤
      (if c = '0' then [] else (ds ++ rest).takeWhile Char.isDigit).length := by
    split
    · next hc =>
      have hzero := h.zero (congrArg some hc)
      cases hzero
      exact Nat.le_refl _
    · exact length_le_takeWhile (fun d hd => h.digits d (List.mem_cons_of_mem c hd)) rest
  simp only [numeral, List.length_append, List.length_cons]
  omega

theorem munch_reaches_pointed {ds fs : List Char} (h : Decimal.Whole ds)
    (hfs : ∀ c ∈ fs, c.isDigit = true) (hpoint : ds ++ '.' :: fs ≠ ['.']) (rest : List Char) :
    ∃ c cs t, ds ++ '.' :: fs = c :: cs ∧ munch c (cs ++ rest) = some t ∧
      cs.length + 1 ≤ t.spelling.length := by
  cases ds with
  | cons c ds =>
    refine ⟨c, ds ++ '.' :: fs, _, rfl, munch_digit (h.digits c List.mem_cons_self), ?_⟩
    rw [List.append_assoc, List.cons_append, numeral_whole h]
    · rw [Token.spelling, String.length_ofList, List.length_append, List.length_append,
        List.length_cons, List.length_cons]
      have hfraction := length_le_fraction hfs rest
      omega
    · intro d hd
      cases hd
      rfl
  | nil =>
    cases fs with
    | nil => exact absurd rfl hpoint
    | cons d fs =>
      refine ⟨'.', d :: fs, _, rfl, munch_point (hfs d List.mem_cons_self), ?_⟩
      rw [Token.spelling, String.length_ofList]
      exact length_le_fraction hfs rest

theorem munch_reaches_operator (op : Op) (rest : List Char) :
    ∃ c cs t, op.symbol.toList = c :: cs ∧ munch c (cs ++ rest) = some t ∧
      cs.length + 1 ≤ t.spelling.length := by
  have hsome : ∀ c, (c = '<' ∨ c = '>') → ∃ t, munch c rest = some t ∧ 1 ≤ t.spelling.length := by
    rintro c hc
    by_cases hrest : rest.head? = some '='
    · obtain ⟨tail, rfl⟩ := List.head?_eq_some_iff.1 hrest
      rcases hc with rfl | rfl
      · exact ⟨_, rfl, by decide⟩
      · exact ⟨_, rfl, by decide⟩
    · rcases hc with rfl | rfl
      · exact ⟨_, (munch_short hrest).1, by decide⟩
      · exact ⟨_, (munch_short hrest).2.1, by decide⟩
  cases op with
  | lt =>
    obtain ⟨t, hmunch, hlen⟩ := hsome '<' (.inl rfl)
    exact ⟨_, [], t, rfl, hmunch, hlen⟩
  | gt =>
    obtain ⟨t, hmunch, hlen⟩ := hsome '>' (.inr rfl)
    exact ⟨_, [], t, rfl, hmunch, hlen⟩
  | _ => exact ⟨_, _, _, rfl, rfl, by decide⟩

/-- Whatever a pattern matches, unless it is a point alone, a token is read there that is no
shorter. -/
theorem munch_reaches {m : List Char} (h : Matched m) (hpoint : m ≠ ['.']) (rest : List Char) :
    ∃ c cs t, m = c :: cs ∧ munch c (cs ++ rest) = some t ∧ cs.length + 1 ≤ t.spelling.length := by
  cases h with
  | keyword word =>
    obtain ⟨c, cs, hspelling, hword⟩ := keyword_isWord word
    obtain ⟨t, hmunch, hlen⟩ := munch_reaches_word hword rest
    exact ⟨c, cs, t, hspelling, hmunch, hlen⟩
  | word hc hcs =>
    obtain ⟨t, hmunch, hlen⟩ := munch_reaches_word (isWord_iff.2 ⟨hc, hcs⟩) rest
    exact ⟨_, _, t, rfl, hmunch, hlen⟩
  | operator op => exact munch_reaches_operator op rest
  | equals =>
    by_cases hrest : rest.head? = some '='
    · obtain ⟨tail, rfl⟩ := List.head?_eq_some_iff.1 hrest
      exact ⟨_, [], _, rfl, rfl, by decide⟩
    · exact ⟨_, [], _, rfl, (munch_short hrest).2.2, by decide⟩
  | openParen => exact ⟨_, [], _, rfl, rfl, by decide⟩
  | closeParen => exact ⟨_, [], _, rfl, rfl, by decide⟩
  | comma => exact ⟨_, [], _, rfl, rfl, by decide⟩
  | pointed hwhole hfs => exact munch_reaches_pointed hwhole hfs hpoint rest
  | whole hwhole hne =>
    obtain ⟨c, ds, rfl⟩ := List.exists_cons_of_ne_nil hne
    refine ⟨c, ds, _, rfl, munch_digit (hwhole.digits c List.mem_cons_self), ?_⟩
    rw [Token.spelling, String.length_ofList]
    exact length_le_numeral hwhole rest

/-- No match is longer than the token that is read. -/
theorem munch_longest {c : Char} {cs : List Char} {t : Token} (h : munch c cs = some t)
    {m : List Char} (hm : Matched m) (hpre : m <+: c :: cs) :
    m.length ≤ t.spelling.length := by
  by_cases hpoint : m = ['.']
  · obtain ⟨ds, hspelling, -⟩ := munch_spelled h
    rw [hpoint, ← String.length_toList, hspelling, List.length_cons]
    exact Nat.le_add_left 1 _
  · obtain ⟨rest, hrest⟩ := hpre
    obtain ⟨d, ds, t', rfl, hmunch, hlen⟩ := munch_reaches hm hpoint rest
    cases hrest
    cases h.symm.trans hmunch
    exact hlen

/-- Where nothing is read, a point alone is the only match. -/
theorem eq_point_of_munch {c : Char} {cs : List Char} (h : munch c cs = none) {m : List Char}
    (hm : Matched m) (hpre : m <+: c :: cs) : m = ['.'] := by
  by_contra hpoint
  obtain ⟨rest, hrest⟩ := hpre
  obtain ⟨d, ds, t', rfl, hmunch, -⟩ := munch_reaches hm hpoint rest
  cases hrest
  cases h.symm.trans hmunch

theorem munch_alone {t : Token} (h : t.WellFormed) {c : Char} {cs : List Char}
    (hspelling : t.spelling.toList = c :: cs) : munch c cs = some t := by
  have hends : t.Ends [] := by
    cases t with
    | operator op => cases op <;> first | trivial | nofun
    | equals => nofun
    | _ => first | trivial | nofun
  obtain ⟨d, ds, heq, hmunch⟩ := munch_spelling t h hends
  rw [hspelling] at heq
  cases heq
  rwa [List.append_nil] at hmunch

/-- A token is read again before another text, if none goes on with it there that does not go on
with it here. -/
theorem munch_before {c : Char} {ds cs cs' : List Char} {t : Token}
    (hspelling : t.spelling.toList = c :: ds) (h : munch c (ds ++ cs) = some t)
    (hcs : ∀ x, cs'.head? = some x → Matched (c :: (ds ++ [x])) →
      ∃ y, cs.head? = some y ∧ Matched (c :: (ds ++ [y]))) :
    munch c (ds ++ cs') = some t := by
  have hformed := munch_wellFormed h
  have hpoint : c :: ds ≠ ['.'] := by
    intro heq
    cases heq
    cases munch_alone hformed hspelling
  have hmatched := hformed.matched
  rw [hspelling] at hmatched
  obtain ⟨_, _, t', heq, hmunch, hlen⟩ := munch_reaches hmatched hpoint cs'
  cases heq
  obtain ⟨es, hspelling', hes, -⟩ := munch_spelled hmunch
  have hge : ds.length ≤ es.length := by
    rw [← String.length_toList, hspelling'] at hlen
    exact Nat.le_of_succ_le_succ hlen
  obtain ⟨more, rfl⟩ := List.prefix_of_prefix_length_le (List.prefix_append ds cs') hes hge
  cases more with
  | nil =>
    rw [List.append_nil] at hspelling'
    have halone := munch_alone (munch_wellFormed hmunch) hspelling'
    rwa [← halone, munch_alone hformed hspelling] at hmunch
  | cons x more =>
    -- A longer token goes on with some character, so one goes on with the token before `cs` too.
    have hformed' := (munch_wellFormed hmunch).matched
    rw [hspelling'] at hformed'
    have hlonger := hformed'.initial (p := c :: (ds ++ [x])) ⟨more, by simp⟩ (by simp)
    obtain ⟨tail, rfl⟩ := (List.prefix_append_right_inj ds).1 hes
    obtain ⟨y, hy, hmatched'⟩ := hcs x rfl hlonger
    obtain ⟨behind, rfl⟩ := List.head?_eq_some_iff.1 hy
    have hle := munch_longest h hmatched' ⟨behind, by simp⟩
    rw [← String.length_toList, hspelling] at hle
    simp at hle

/-- A token does not change where less of the text stands behind it. -/
theorem munch_cut {c : Char} {cs before after : List Char} {t : Token}
    (hspelling : t.spelling.toList = c :: cs) (h : munch c (cs ++ (before ++ after)) = some t) :
    munch c (cs ++ before) = some t := by
  refine munch_before hspelling h fun x hx hmatched => ⟨x, ?_, hmatched⟩
  obtain ⟨rest, rfl⟩ := List.head?_eq_some_iff.1 hx
  rfl

end Lexer

end Heightfield
