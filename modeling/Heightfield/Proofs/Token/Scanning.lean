import Heightfield.Proofs.Token.Patterns

/-! A scan as a relation: which tokens are read from a text, and what is left where the reading
stops. It stops at the end or at a character that begins no token, and the tokens before that place
are those of the text cut off there. -/

namespace Heightfield.Lexer

open Text

/-- From `text`, which stands at byte `offset`, the tokens are read, and `rest` is left. -/
inductive Scans : List Char → Nat → List Lexeme → List Char → Prop
  | stop {rest offset} : Scans rest offset [] rest
  | blank {c cs offset lexemes rest} (hblank : isBlank c = true)
      (hrest : Scans cs (offset + 1) lexemes rest) : Scans (c :: cs) offset lexemes rest
  | token {c ds cs offset t lexemes rest} (hspelling : t.spelling.toList = c :: ds)
      (hmunch : munch c (ds ++ cs) = some t)
      (hrest : Scans cs (offset + t.spelling.length) lexemes rest) :
      Scans (c :: (ds ++ cs)) offset
        (⟨t, ⟨offset, offset + t.spelling.length⟩⟩ :: lexemes) rest

section

variable {c : Char} {cs ds text rest : List Char} {t : Token} {offset : Nat}
  {lexemes : List Lexeme} {stray : Stray}

/-- A token has one byte for each character. -/
theorem byteLength_spelling (hspelling : t.spelling.toList = c :: ds)
    (hmunch : munch c cs = some t) : byteLength (c :: ds) = t.spelling.length := by
  obtain ⟨ds', hspelling', -, hascii⟩ := munch_spelled hmunch
  rw [← hspelling', hspelling] at hascii
  rw [hascii.byteLength, ← hspelling, String.length_toList]

/-- What is passed over before the rest of the text: a blank of one byte, or a token. -/
theorem byteLength_blank (h : isBlank c = true) (cs : List Char) :
    byteLength (c :: cs) = 1 + byteLength cs := by
  rw [byteLength, Char.utf8Size_eq_one_iff.2 (isBlank_ascii h)]

theorem byteLength_token (hspelling : t.spelling.toList = c :: ds)
    (hmunch : munch c (ds ++ cs) = some t) (rest : List Char) :
    byteLength (c :: (ds ++ rest)) = t.spelling.length + byteLength rest := by
  rw [← List.cons_append, byteLength_append, byteLength_spelling hspelling hmunch]

/-- A token that is read is split off, with what is scanned behind it. -/
theorem exists_of_munch (h : munch c cs = some t) : ∃ ds cs', cs = ds ++ cs' ∧
    t.spelling.toList = c :: ds ∧ cs.drop (t.spelling.length - 1) = cs' := by
  obtain ⟨ds, hspelling, ⟨cs', rfl⟩, -⟩ := munch_spelled h
  refine ⟨ds, cs', rfl, hspelling, ?_⟩
  rw [← String.length_toList, hspelling, List.length_cons, Nat.add_sub_cancel, List.drop_left]

theorem scans_of_ok (h : scan text offset = .ok lexemes) : Scans text offset lexemes [] := by
  fun_induction scan text offset generalizing lexemes with
  | case1 offset =>
    cases h
    exact .stop
  | case2 offset c cs hblank ih => exact .blank hblank (ih h)
  | case3 offset c cs hblank hmunch => cases h
  | case4 offset c cs hblank t hmunch length =>
    rename_i ih
    obtain ⟨ds, cs', rfl, hspelling, hdrop⟩ := exists_of_munch hmunch
    rw [hdrop] at h ih
    cases hrest : scan cs' (offset + length) with
    | error stray =>
      rw [hrest] at h
      cases h
    | ok others =>
      rw [hrest] at h
      cases h
      exact .token hspelling hmunch (ih hrest)

/-- Where a scan fails, its tokens end before a character that begins none. -/
theorem scans_of_error (h : scan text offset = .error stray) : ∃ lexemes rest,
    Scans text offset lexemes (stray.char :: rest) ∧ isBlank stray.char = false ∧
      munch stray.char rest = none ∧
      stray.offset + byteLength (stray.char :: rest) = offset + byteLength text := by
  fun_induction scan text offset with
  | case1 offset => cases h
  | case2 offset c cs hblank ih =>
    obtain ⟨lexemes, rest, hscans, hstray, hmunch, hoffset⟩ := ih h
    refine ⟨lexemes, rest, .blank hblank hscans, hstray, hmunch, ?_⟩
    rw [hoffset, byteLength_blank hblank, Nat.add_assoc]
  | case3 offset c cs hblank hmunch =>
    cases h
    exact ⟨[], cs, .stop, Bool.eq_false_iff.2 hblank, hmunch, rfl⟩
  | case4 offset c cs hblank t hmunch length =>
    rename_i ih
    obtain ⟨ds, cs', rfl, hspelling, hdrop⟩ := exists_of_munch hmunch
    rw [hdrop] at h ih
    cases hrest : scan cs' (offset + length) with
    | ok others =>
      rw [hrest] at h
      cases h
    | error stray' =>
      rw [hrest] at h
      cases h
      obtain ⟨lexemes, rest, hscans, hstray, hnone, hoffset⟩ := ih hrest
      refine ⟨_, rest, .token hspelling hmunch hscans, hstray, hnone, ?_⟩
      rw [hoffset, byteLength_token hspelling hmunch, Nat.add_assoc]

end

namespace Scans

variable {text rest : List Char} {offset : Nat} {lexemes : List Lexeme}

theorem scan (h : Scans text offset lexemes []) : Lexer.scan text offset = .ok lexemes := by
  generalize hrest : ([] : List Char) = rest at h
  induction h with
  | stop =>
    subst hrest
    rw [Lexer.scan]
  | blank hblank _ ih => rw [scan_blank hblank, ih hrest]
  | token hspelling hmunch _ ih =>
    rw [scan_token hspelling hmunch, ih hrest]
    rfl

/-- What is read is a part of the text, without a character of more than one byte. -/
theorem read (h : Scans text offset lexemes rest) : ∃ front, text = front ++ rest ∧ Ascii front := by
  induction h with
  | stop => exact ⟨[], rfl, nofun⟩
  | blank hblank _ ih =>
    obtain ⟨front, rfl, hascii⟩ := ih
    exact ⟨_ :: front, rfl, hascii.cons (isBlank_ascii hblank)⟩
  | @token c ds cs offset t lexemes rest hspelling hmunch _ ih =>
    obtain ⟨front, rfl, hascii⟩ := ih
    obtain ⟨ds', hspelling', -, hascii'⟩ := munch_spelled hmunch
    rw [← hspelling', hspelling] at hascii'
    refine ⟨c :: ds ++ front, ?_, hascii'.append hascii⟩
    rw [List.cons_append, List.cons_append, List.append_assoc]

/-- The same tokens are read from the text without what is left. -/
theorem cut (h : Scans text offset lexemes rest) {front : List Char} (ht : text = front ++ rest) :
    Scans front offset lexemes [] := by
  induction h generalizing front with
  | stop =>
    rw [List.self_eq_append_left] at ht
    subst ht
    exact .stop
  | blank hblank hrest ih =>
    obtain ⟨front', rfl, -⟩ := hrest.read
    rw [← List.cons_append, List.append_left_inj] at ht
    subst ht
    exact .blank hblank (ih rfl)
  | token hspelling hmunch hrest ih =>
    obtain ⟨front', rfl, -⟩ := hrest.read
    rw [← List.append_assoc, ← List.cons_append, List.append_left_inj] at ht
    subst ht
    exact .token hspelling (munch_cut hspelling hmunch) (ih rfl)

section Parts

variable {l : Lexeme} {before behind : List Lexeme}

/-- Where a token begins, the text is cut in two, and with it the tokens. -/
theorem cut_before (h : Scans text offset (before ++ l :: behind) rest) : ∃ front back,
    text = front ++ back ∧ l.span.start = offset + byteLength front ∧
      Scans text offset before back ∧ Scans back l.span.start (l :: behind) rest := by
  generalize hlexemes : before ++ l :: behind = lexemes at h
  induction h generalizing before with
  | stop => simp at hlexemes
  | @blank c cs offset lexemes rest hblank hrest ih =>
    obtain ⟨front, back, rfl, hstart, hfront, hback⟩ := ih hlexemes
    refine ⟨c :: front, back, rfl, ?_, .blank hblank hfront, hback⟩
    rw [hstart, byteLength_blank hblank, Nat.add_assoc]
  | @token c ds cs offset t lexemes rest hspelling hmunch hrest ih =>
    cases before with
    | nil =>
      cases hlexemes
      exact ⟨[], _, rfl, rfl, .stop, .token hspelling hmunch hrest⟩
    | cons l' before =>
      cases hlexemes
      obtain ⟨front, back, rfl, hstart, hfront, hback⟩ := ih rfl
      refine ⟨c :: (ds ++ front), back, ?_, ?_, .token hspelling hmunch hfront, hback⟩
      · rw [List.cons_append, List.append_assoc]
      · rw [hstart, byteLength_token hspelling hmunch, Nat.add_assoc]

theorem cut_behind (h : Scans text offset (before ++ l :: behind) rest) : ∃ front back,
    text = front ++ back ∧ l.span.stop = offset + byteLength front ∧
      Scans text offset (before ++ [l]) back := by
  generalize hlexemes : before ++ l :: behind = lexemes at h
  induction h generalizing before with
  | stop => simp at hlexemes
  | @blank c cs offset lexemes rest hblank hrest ih =>
    obtain ⟨front, back, rfl, hstop, hfront⟩ := ih hlexemes
    refine ⟨c :: front, back, rfl, ?_, .blank hblank hfront⟩
    rw [hstop, byteLength_blank hblank, Nat.add_assoc]
  | @token c ds cs offset t lexemes rest hspelling hmunch hrest ih =>
    cases before with
    | nil =>
      cases hlexemes
      refine ⟨c :: ds, cs, rfl, ?_, .token hspelling hmunch .stop⟩
      rw [byteLength_spelling hspelling hmunch]
    | cons l' before =>
      cases hlexemes
      obtain ⟨front, back, rfl, hstop, hfront⟩ := ih rfl
      refine ⟨c :: (ds ++ front), back, ?_, ?_, .token hspelling hmunch hfront⟩
      · rw [List.cons_append, List.append_assoc]
      · rw [hstop, byteLength_token hspelling hmunch, Nat.add_assoc]

end Parts

/-- The same tokens are read wherever the text stands. -/
theorem moved (h : Scans text offset lexemes rest) (offset' : Nat) : ∃ lexemes',
    Scans text offset' lexemes' rest ∧ lexemes'.map (·.token) = lexemes.map (·.token) := by
  induction h generalizing offset' with
  | stop => exact ⟨[], .stop, rfl⟩
  | blank hblank _ ih =>
    obtain ⟨lexemes', hscans, htokens⟩ := ih (offset' + 1)
    exact ⟨lexemes', .blank hblank hscans, htokens⟩
  | @token c ds cs offset t lexemes rest hspelling hmunch _ ih =>
    obtain ⟨lexemes', hscans, htokens⟩ := ih (offset' + t.spelling.length)
    exact ⟨_, .token hspelling hmunch hscans, by rw [List.map_cons, List.map_cons, htokens]⟩

end Scans

end Heightfield.Lexer

namespace Heightfield

open Lexer Text

/-- A stretch of tokens, from the start of its first to the end of its last, is a text of its own
with these tokens. -/
theorem lex_slice {source : String} {before inner behind : List Lexeme} {first last : Lexeme}
    (h : lex source = .ok (before ++ first :: (inner ++ last :: behind))) :
    ∃ text : String, Span.slice? ⟨first.span.start, last.span.stop⟩ source.toList =
        some text.toList ∧
      ∃ lexemes, lex text = .ok lexemes ∧
        lexemes.map (·.token) = (first :: (inner ++ [last])).map (·.token) := by
  obtain ⟨front, back, hsource, hstart, -, hback⟩ := (scans_of_ok (lex_eq_ok.1 h)).cut_before
  rw [← List.cons_append] at hback
  obtain ⟨middle, tail, rfl, hstop, hmiddle⟩ := hback.cut_behind
  obtain ⟨lexemes, hscans, htokens⟩ := (hmiddle.cut rfl).moved 0
  refine ⟨.ofList middle, ?_, lexemes, lex_eq_ok.2 ?_, htokens⟩
  · rw [hstop, hstart, Nat.zero_add, ← byteLength_append, hsource, String.toList_ofList]
    exact Span.slice?_append front middle tail
  · rw [String.toList_ofList]
    exact hscans.scan

end Heightfield
