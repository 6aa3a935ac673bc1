import Heightfield.Proofs.Decimal.Readback
import Heightfield.Proofs.Token.Spelling

/-! A well-formed token is read back from its spelling wherever nothing behind it goes on with it,
and only well-formed tokens are read. -/

namespace Heightfield

open Lexer

/-- What a name or a keyword is spelled with. -/
structure IsWord (c : Char) (cs : List Char) : Prop where
  starts : startsWord c = true
  continues : ∀ d ∈ cs, continuesWord d = true

/-- What a number is spelled with. A point has a digit before it or behind it. -/
inductive IsNumber : List Char → Prop
  | whole {ds} (h : Decimal.Whole ds) (hne : ds ≠ []) : IsNumber ds
  | pointed {ds fs} (h : Decimal.Whole ds) (hfs : ∀ c ∈ fs, c.isDigit = true)
    (hne : ds ≠ [] ∨ fs ≠ []) : IsNumber (ds ++ '.' :: fs)

/-- No keyword is a name. -/
def Token.WellFormed : Token → Prop
  | .ident name => (∃ c cs, name.toList = c :: cs ∧ IsWord c cs) ∧ ofWord name = .ident name
  | .number digits => IsNumber digits.toList
  | _ => True

/-- What stands behind the token does not go on with it. -/
def Token.Ends : Token → List Char → Prop
  | .keyword _, rest | .ident _, rest => ∀ c, rest.head? = some c → continuesWord c = false
  | .number _, rest => ∀ c, rest.head? = some c → c.isDigit = false ∧ c ≠ '.'
  | .operator .lt, rest | .operator .gt, rest | .equals, rest => rest.head? ≠ some '='
  | _, _ => True

namespace Lexer

theorem takeWhile_append_of_head {p : Char → Bool} {cs rest : List Char}
    (hcs : ∀ c ∈ cs, p c = true) (hrest : ∀ c, rest.head? = some c → p c = false) :
    (cs ++ rest).takeWhile p = cs := by
  rw [List.takeWhile_append_of_pos hcs]
  cases rest with
  | nil => rw [List.takeWhile_nil, List.append_nil]
  | cons c rest =>
    rw [List.takeWhile_cons_of_neg (Bool.eq_false_iff.1 (hrest c rfl)), List.append_nil]

theorem munch_word {c : Char} {cs rest : List Char} (h : IsWord c cs)
    (hrest : ∀ d, rest.head? = some d → continuesWord d = false) :
    munch c (cs ++ rest) = some (ofWord (String.ofList (c :: cs))) := by
  unfold munch
  rw [if_pos h.starts, takeWhile_append_of_head h.continues hrest]

theorem not_startsWord_of_isDigit {c : Char} (h : c.isDigit = true) : ¬ startsWord c = true := by
  intro hword
  simp only [startsWord, Bool.or_eq_true, decide_eq_true_eq] at hword
  rcases hword with hword | rfl
  · grind [Char.isAlpha, Char.isUpper, Char.isLower, Char.isDigit]
  · cases h

theorem fraction_of_head {rest : List Char} (h : rest.head? ≠ some '.') : fraction rest = [] := by
  unfold fraction
  split
  · exact absurd rfl h
  · rfl

theorem fraction_point {fs rest : List Char} (hfs : ∀ c ∈ fs, c.isDigit = true)
    (hrest : ∀ c, rest.head? = some c → c.isDigit = false) :
    fraction ('.' :: (fs ++ rest)) = '.' :: fs := by
  rw [fraction, takeWhile_append_of_head hfs hrest]

/-- The whole part of a number ends where no digit follows. -/
theorem numeral_whole {c : Char} {ds rest : List Char} (h : Decimal.Whole (c :: ds))
    (hrest : ∀ c, rest.head? = some c → c.isDigit = false) :
    numeral c (ds ++ rest) = c :: ds ++ fraction rest := by
  have hwhole : (if c = '0' then [] else (ds ++ rest).takeWhile Char.isDigit) = ds := by
    split
    · next hc =>
      have hzero := h.zero (congrArg some hc)
      cases hzero
      rfl
    · exact takeWhile_append_of_head (fun d hd => h.digits d (List.mem_cons_of_mem c hd)) hrest
  simp only [numeral, hwhole, List.drop_left]

theorem munch_digit {c : Char} {cs : List Char} (h : c.isDigit = true) :
    munch c cs = some (.number (String.ofList (numeral c cs))) := by
  unfold munch
  rw [if_neg (not_startsWord_of_isDigit h), if_pos h]

theorem munch_point {c : Char} {cs : List Char} (h : c.isDigit = true) :
    munch '.' (c :: cs) = some (.number (String.ofList (fraction ('.' :: c :: cs)))) := by
  have hword : ¬ startsWord '.' = true := by decide
  have hdigit : ¬ '.'.isDigit = true := by decide
  unfold munch
  rw [if_neg hword, if_neg hdigit]
  exact if_pos h

theorem munch_number {cs rest : List Char} (h : IsNumber cs)
    (hrest : ∀ c, rest.head? = some c → c.isDigit = false ∧ c ≠ '.') :
    ∃ c ds, cs = c :: ds ∧ munch c (ds ++ rest) = some (.number (String.ofList cs)) := by
  have hdigit : ∀ c, rest.head? = some c → c.isDigit = false := fun c hc => (hrest c hc).1
  have hpoint : rest.head? ≠ some '.' := fun hc => (hrest '.' hc).2 rfl
  cases h with
  | @whole ds h hne =>
    obtain ⟨c, ds, rfl⟩ := List.exists_cons_of_ne_nil hne
    refine ⟨c, ds, rfl, ?_⟩
    rw [munch_digit (h.digits c List.mem_cons_self), numeral_whole h hdigit,
      fraction_of_head hpoint, List.append_nil]
  | @pointed ds fs h hfs hne =>
    cases ds with
    | nil =>
      obtain ⟨c, fs, rfl⟩ := List.exists_cons_of_ne_nil (hne.resolve_left (absurd rfl))
      refine ⟨'.', c :: fs, rfl, ?_⟩
      rw [List.cons_append, munch_point (hfs c List.mem_cons_self), ← List.cons_append,
        fraction_point hfs hdigit, List.nil_append]
    | cons c ds =>
      refine ⟨c, ds ++ '.' :: fs, rfl, ?_⟩
      rw [munch_digit (h.digits c List.mem_cons_self), List.append_assoc, List.cons_append,
        numeral_whole h, fraction_point hfs hdigit]
      intro d hd
      cases hd
      decide

theorem keyword_isWord (word : Keyword) :
    ∃ c cs, word.spelling.toList = c :: cs ∧ IsWord c cs := by
  cases word <;> exact ⟨_, _, rfl, rfl, List.all_eq_true.1 rfl⟩

theorem ofWord_keyword (word : Keyword) : ofWord word.spelling = .keyword word := by
  cases word <;> decide

/-- The signs that `=` would go on with. -/
theorem munch_short {rest : List Char} (h : rest.head? ≠ some '=') :
    munch '<' rest = some (.operator .lt) ∧ munch '>' rest = some (.operator .gt) ∧
      munch '=' rest = some .equals := by
  cases rest with
  | nil => exact ⟨rfl, rfl, rfl⟩
  | cons c cs =>
    have hc : c ≠ '=' := fun heq => h (congrArg some heq)
    simp [munch, startsWord, hc]

/-- A token is read from its spelling. -/
theorem munch_spelling (t : Token) {rest : List Char} (h : t.WellFormed) (hrest : t.Ends rest) :
    ∃ c cs, t.spelling.toList = c :: cs ∧ munch c (cs ++ rest) = some t := by
  cases t with
  | ident name =>
    obtain ⟨⟨c, cs, hname, hword⟩, hkeyword⟩ := h
    refine ⟨c, cs, hname, ?_⟩
    rw [munch_word hword hrest, ← hname, String.ofList_toList, hkeyword]
  | number digits =>
    obtain ⟨c, cs, hdigits, hmunch⟩ := munch_number h hrest
    refine ⟨c, cs, hdigits, ?_⟩
    rw [hmunch, String.ofList_toList]
  | keyword word =>
    obtain ⟨c, cs, hspelling, hword⟩ := keyword_isWord word
    refine ⟨c, cs, hspelling, ?_⟩
    rw [munch_word hword hrest, ← hspelling, String.ofList_toList, ofWord_keyword]
  | operator op =>
    cases op with
    | lt => exact ⟨_, [], rfl, (munch_short hrest).1⟩
    | gt => exact ⟨_, [], rfl, (munch_short hrest).2.1⟩
    | _ => exact ⟨_, _, rfl, rfl⟩
  | equals => exact ⟨_, [], rfl, (munch_short hrest).2.2⟩
  | _ => exact ⟨_, _, rfl, rfl⟩

/-- A blank begins no token. -/
theorem munch_isBlank {c : Char} (h : isBlank c = true) (cs : List Char) : munch c cs = none := by
  simp only [isBlank, List.mem_cons, List.not_mem_nil, or_false, decide_eq_true_eq] at h
  rcases h with rfl | rfl | rfl | rfl | rfl <;> rfl

theorem scan_blank {c : Char} (h : isBlank c = true) (cs : List Char) (offset : Nat) :
    scan (c :: cs) offset = scan cs (offset + 1) := by
  rw [scan, if_pos h]

/-- A token is read before all that stands behind it. -/
theorem scan_token {c : Char} {cs ds : List Char} {t : Token}
    (hspelling : t.spelling.toList = c :: ds) (hmunch : munch c (ds ++ cs) = some t)
    (offset : Nat) : scan (c :: (ds ++ cs)) offset =
      (scan cs (offset + t.spelling.length)).map
        (⟨t, ⟨offset, offset + t.spelling.length⟩⟩ :: ·) := by
  have hblank : ¬ isBlank c = true := by
    intro hblank
    rw [munch_isBlank hblank] at hmunch
    cases hmunch
  have hlength : t.spelling.length - 1 = ds.length := by
    rw [← String.length_toList, hspelling, List.length_cons, Nat.add_sub_cancel]
  rw [scan, if_neg hblank, hmunch]
  simp only [hlength, List.drop_left]

theorem isWord_takeWhile {c : Char} (h : startsWord c = true) (cs : List Char) :
    IsWord c (cs.takeWhile continuesWord) :=
  ⟨h, List.all_eq_true.1 List.all_takeWhile⟩

theorem ofWord_wellFormed {c : Char} {cs : List Char} (h : IsWord c cs) :
    (ofWord (String.ofList (c :: cs))).WellFormed := by
  cases hword : ofWord (String.ofList (c :: cs)) with
  | ident name =>
    have hspelling := ofWord_spelling (String.ofList (c :: cs))
    rw [hword] at hspelling
    cases hspelling
    exact ⟨⟨c, cs, String.toList_ofList, h⟩, hword⟩
  | number digits =>
    unfold ofWord at hword
    split at hword <;> cases hword
  | _ => trivial

theorem fraction_cases (cs : List Char) : fraction cs = [] ∨
    ∃ fs, fraction cs = '.' :: fs ∧ ∀ c ∈ fs, c.isDigit = true := by
  unfold fraction
  split
  · exact .inr ⟨_, rfl, List.all_eq_true.1 List.all_takeWhile⟩
  · exact .inl rfl

theorem numeral_isNumber {c : Char} (h : c.isDigit = true) (cs : List Char) :
    IsNumber (numeral c cs) := by
  have hwhole : Decimal.Whole (c :: if c = '0' then [] else cs.takeWhile Char.isDigit) := by
    split
    · next hc =>
      subst hc
      exact ⟨List.forall_mem_singleton.2 rfl, fun _ => rfl⟩
    · next hc =>
      exact ⟨List.forall_mem_cons.2 ⟨h, List.all_eq_true.1 List.all_takeWhile⟩,
        fun hhead => absurd (Option.some.inj hhead) hc⟩
  simp only [numeral]
  generalize (if c = '0' then [] else cs.takeWhile Char.isDigit) = ds at hwhole ⊢
  obtain hnone | ⟨fs, hfs, hdigits⟩ := fraction_cases (cs.drop ds.length)
  · rw [hnone, List.append_nil]
    exact .whole hwhole (List.cons_ne_nil _ _)
  · rw [hfs]
    exact .pointed hwhole hdigits (.inl (List.cons_ne_nil _ _))

theorem munch_wellFormed {c : Char} {cs : List Char} {t : Token} (h : munch c cs = some t) :
    t.WellFormed := by
  unfold munch at h
  split at h
  · next hword =>
    cases h
    exact ofWord_wellFormed (isWord_takeWhile hword cs)
  split at h
  · next hdigit =>
    cases h
    rw [Token.WellFormed, String.toList_ofList]
    exact numeral_isNumber hdigit cs
  split at h
  · next d _ =>
    split at h
    · next hdigit =>
      cases h
      rw [Token.WellFormed, String.toList_ofList]
      refine @IsNumber.pointed [] _ ⟨nofun, nofun⟩ (List.all_eq_true.1 List.all_takeWhile) (.inr ?_)
      rw [List.takeWhile_cons_of_pos hdigit]
      exact List.cons_ne_nil _ _
    · cases h
  all_goals cases h
  all_goals trivial

end Lexer

end Heightfield
