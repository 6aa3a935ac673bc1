import Heightfield.Proofs.Token.Scanning

/-! Nothing of a text is lost in its tokens: they stand one behind another with blanks in all other
places, and each is the longest match where it begins. A text that cannot be read is read like this
up to the first character that begins no token. -/

namespace Heightfield

namespace Text

variable {p q text : List Char}

theorem byteLength_pos (h : p ≠ []) : 0 < byteLength p := by
  obtain ⟨c, cs, rfl⟩ := List.exists_cons_of_ne_nil h
  exact Nat.add_pos_left c.utf8Size_pos _

/-- Of two beginnings of a text, the one with fewer bytes has fewer characters. -/
theorem byteLength_lt_iff (hp : p <+: text) (hq : q <+: text) :
    byteLength p < byteLength q ↔ p.length < q.length := by
  constructor
  · intro h
    by_contra hle
    obtain ⟨r, rfl⟩ := List.prefix_of_prefix_length_le hq hp (Nat.le_of_not_lt hle)
    rw [byteLength_append] at h
    omega
  · intro h
    obtain ⟨r, rfl⟩ := List.prefix_of_prefix_length_le hp hq (Nat.le_of_lt h)
    have hr : r ≠ [] := by
      rintro rfl
      rw [List.append_nil] at h
      exact Nat.lt_irrefl _ h
    have hpos := byteLength_pos hr
    rw [byteLength_append]
    omega

theorem eq_of_byteLength_eq (hp : p <+: text) (hq : q <+: text)
    (h : byteLength p = byteLength q) : p = q := by
  have hlt := byteLength_lt_iff hp hq
  have hgt := byteLength_lt_iff hq hp
  have hlen : p.length = q.length := by omega
  exact (List.prefix_of_prefix_length_le hp hq (Nat.le_of_eq hlen)).eq_of_length hlen

end Text

open Lexer Text

/-- How tokens fill the text between two bytes of it. -/
structure Tiles (text : List Char) (start stop : Nat) (lexemes : List Lexeme) : Prop where
  ordered : lexemes.Pairwise fun a b => a.span.stop ≤ b.span.start
  nonempty : ∀ l ∈ lexemes, l.span.start < l.span.stop
  inside : ∀ l ∈ lexemes, start ≤ l.span.start ∧ l.span.stop ≤ stop
  formed : ∀ l ∈ lexemes, l.token.WellFormed
  spelled : ∀ l ∈ lexemes, l.span.slice? text = some l.token.spelling.toList
  /-- No longer text with which the rest of `text` begins is matched by a pattern. -/
  longest : ∀ l ∈ lexemes, ∃ rest, dropBytes? text l.span.start = some rest ∧
    ∀ m, Matched m → m <+: rest → m.length ≤ l.token.spelling.length
  /-- Each character stands in a token with all its bytes, or it is a blank. -/
  blank : ∀ before c after, text = before ++ c :: after → start ≤ byteLength before →
    byteLength before < stop → (∃ l ∈ lexemes, l.span.start ≤ byteLength before ∧
      byteLength before + c.utf8Size ≤ l.span.stop) ∨ c ∈ [' ', '\t', '\r', '\n', '\x0c']

namespace Tiles

variable {text before after : List Char} {c : Char} {t : Token} {start middle stop : Nat}
  {lexemes others : List Lexeme}

theorem empty (text : List Char) (start : Nat) : Tiles text start start [] where
  ordered := .nil
  nonempty := nofun
  inside := nofun
  formed := nofun
  spelled := nofun
  longest := nofun
  blank _ _ _ _ hstart hstop := by omega

theorem append (h : Tiles text start middle lexemes) (h' : Tiles text middle stop others)
    (hle : start ≤ middle) (hle' : middle ≤ stop) :
    Tiles text start stop (lexemes ++ others) where
  ordered := by
    refine List.pairwise_append.2 ⟨h.ordered, h'.ordered, fun a ha b hb => ?_⟩
    exact Nat.le_trans (h.inside a ha).2 (h'.inside b hb).1
  nonempty := List.forall_mem_append.2 ⟨h.nonempty, h'.nonempty⟩
  inside := by
    refine List.forall_mem_append.2 ⟨fun l hl => ?_, fun l hl => ?_⟩
    · exact ⟨(h.inside l hl).1, Nat.le_trans (h.inside l hl).2 hle'⟩
    · exact ⟨Nat.le_trans hle (h'.inside l hl).1, (h'.inside l hl).2⟩
  formed := List.forall_mem_append.2 ⟨h.formed, h'.formed⟩
  spelled := List.forall_mem_append.2 ⟨h.spelled, h'.spelled⟩
  longest := List.forall_mem_append.2 ⟨h.longest, h'.longest⟩
  blank before c after htext hstart hstop := by
    rcases Nat.lt_or_ge (byteLength before) middle with hlt | hge
    · refine (h.blank before c after htext hstart hlt).imp_left ?_
      rintro ⟨l, hl, hspan⟩
      exact ⟨l, List.mem_append_left _ hl, hspan⟩
    · refine (h'.blank before c after htext hge hstop).imp_left ?_
      rintro ⟨l, hl, hspan⟩
      exact ⟨l, List.mem_append_right _ hl, hspan⟩

theorem ofBlank (hc : isBlank c = true) (before after : List Char) :
    Tiles (before ++ c :: after) (byteLength before) (byteLength before + 1) [] where
  ordered := .nil
  nonempty := nofun
  inside := nofun
  formed := nofun
  spelled := nofun
  longest := nofun
  blank before' d after' htext hstart hstop := by
    have hsame : before' = before := by
      refine eq_of_byteLength_eq (List.prefix_append before' (d :: after')) ?_ (by omega)
      rw [← htext]
      exact List.prefix_append _ _
    subst hsame
    cases List.append_cancel_left htext
    rw [isBlank, decide_eq_true_eq] at hc
    simp only [List.mem_cons, List.not_mem_nil, or_false] at hc ⊢
    rcases hc with rfl | rfl | rfl | rfl | rfl <;> simp

theorem ofToken {ds : List Char} (hspelling : t.spelling.toList = c :: ds)
    (hmunch : munch c (ds ++ after) = some t) (before : List Char) :
    Tiles (before ++ c :: (ds ++ after)) (byteLength before)
      (byteLength before + t.spelling.length)
      [⟨t, ⟨byteLength before, byteLength before + t.spelling.length⟩⟩] := by
  have hlength := byteLength_spelling hspelling hmunch
  have hstop : byteLength before + t.spelling.length = byteLength (before ++ c :: ds) := by
    rw [byteLength_append, hlength]
  have hpos : 0 < t.spelling.length := by
    rw [← hlength]
    exact byteLength_pos (List.cons_ne_nil c ds)
  constructor
  case ordered => exact List.pairwise_singleton _ _
  case nonempty => exact List.forall_mem_singleton.2 (Nat.lt_add_of_pos_right hpos)
  case inside => exact List.forall_mem_singleton.2 ⟨Nat.le_refl _, Nat.le_refl _⟩
  case formed => exact List.forall_mem_singleton.2 (munch_wellFormed hmunch)
  case spelled =>
    refine List.forall_mem_singleton.2 ?_
    rw [hstop, hspelling]
    exact Span.slice?_append before (c :: ds) after
  case longest =>
    refine List.forall_mem_singleton.2 ⟨_, dropBytes?_append _ _, fun m hm hpre => ?_⟩
    exact munch_longest hmunch hm hpre
  case blank =>
    intro before' d after' htext hstart hlt
    refine .inl ⟨_, List.mem_singleton_self _, hstart, ?_⟩
    have hpre : before ++ c :: ds <+: before' ++ d :: after' := by
      rw [← htext, ← List.cons_append, ← List.append_assoc]
      exact List.prefix_append _ _
    have hpre' : before' ++ [d] <+: before' ++ d :: after' := by
      rw [List.prefix_append_right_inj]
      exact ⟨after', rfl⟩
    -- The token ends between two characters, so it holds all of one that begins before its end.
    rw [hstop, byteLength_lt_iff (List.prefix_append _ _) hpre] at hlt
    have hle : (before' ++ [d]).length ≤ (before ++ c :: ds).length := by
      rw [List.length_append, List.length_singleton]
      exact hlt
    obtain ⟨r, hr⟩ := List.prefix_of_prefix_length_le hpre' hpre hle
    have hbytes : byteLength before' + d.utf8Size = byteLength (before' ++ [d]) := by
      rw [byteLength_append]
      rfl
    rw [hbytes]
    simp only [hstop, ← hr]
    rw [byteLength_append (before' ++ [d])]
    exact Nat.le_add_right _ _

end Tiles

/-- The tokens that are read from a text fill it up to what is left. -/
theorem Lexer.Scans.tiles {text rest : List Char} {offset : Nat} {lexemes : List Lexeme}
    (h : Scans text offset lexemes rest) {before : List Char} (hoffset : offset = byteLength before)
    {stop : Nat} (hstop : stop + byteLength rest = offset + byteLength text) :
    Tiles (before ++ text) offset stop lexemes := by
  induction h generalizing before with
  | stop =>
    obtain rfl := Nat.add_right_cancel hstop
    exact .empty _ _
  | @blank c cs offset lexemes rest hblank hrest ih =>
    subst hoffset
    have hnext : byteLength before + 1 = byteLength (before ++ [c]) := by
      rw [byteLength_append, byteLength_blank hblank]
      rfl
    obtain ⟨front, rfl, -⟩ := hrest.read
    rw [byteLength_blank hblank, byteLength_append] at hstop
    have htail := ih hnext (by rw [byteLength_append]; omega)
    rw [List.append_assoc, List.singleton_append] at htail
    exact (Tiles.ofBlank hblank before _).append htail (Nat.le_succ _) (by omega)
  | @token c ds cs offset t lexemes rest hspelling hmunch hrest ih =>
    subst hoffset
    have hlength := byteLength_spelling hspelling hmunch
    have hnext : byteLength before + t.spelling.length = byteLength (before ++ c :: ds) := by
      rw [byteLength_append, hlength]
    obtain ⟨front, rfl, -⟩ := hrest.read
    rw [← List.cons_append, byteLength_append, byteLength_append, hlength] at hstop
    have htail := ih hnext (by rw [byteLength_append]; omega)
    rw [List.append_assoc, List.cons_append] at htail
    exact (Tiles.ofToken hspelling hmunch before).append htail (Nat.le_add_right _ _) (by omega)

theorem Lexer.Scans.tiles_source {source : String} {lexemes : List Lexeme} {rest : List Char}
    {stop : Nat} (h : Scans source.toList 0 lexemes rest)
    (hstop : stop + byteLength rest = source.utf8ByteSize) :
    Tiles source.toList 0 stop lexemes := by
  have hstart : 0 = byteLength ([] : List Char) := rfl
  refine Scans.tiles h hstart ?_
  rw [hstop, byteLength_toList, Nat.zero_add]

/-- The tokens of a text tile it; and where it has none, they tile it up to a character that begins
no token, which the error shows with what follows. -/
theorem lex_tiles (source : String) :
    match lex source with
    | .ok lexemes => Tiles source.toList 0 source.utf8ByteSize lexemes
    | .error e => ∃ before c after lexemes, source = before ++ (String.singleton c ++ after) ∧
        e.cause = .unexpectedCharacter (String.singleton c) ∧
        e.span = ⟨before.utf8ByteSize, before.utf8ByteSize + c.utf8Size⟩ ∧
        e.span.slice? source.toList = some [c] ∧ e.remaining = String.singleton c ++ after ∧
        isBlank c = false ∧ (∀ m, Matched m → m <+: c :: after.toList → m = ['.']) ∧
        lex before = .ok lexemes ∧ Tiles source.toList 0 e.span.start lexemes := by
  cases hscan : scan source.toList 0 with
  | ok lexemes =>
    rw [lex_eq_ok.2 hscan]
    exact (scans_of_ok hscan).tiles_source rfl
  | error stray =>
    obtain ⟨c, offset⟩ := stray
    obtain ⟨lexemes, rest, hscans, hblank, hmunch, hoffset⟩ := scans_of_error hscan
    simp only [byteLength_toList, Nat.zero_add] at hoffset
    obtain ⟨front, hfront, -⟩ := hscans.read
    have hlex : lex source = .error (.of (.unexpectedCharacter (String.singleton c))
        ⟨offset, offset + c.utf8Size⟩ [] source) := by
      rw [lex, hscan]
      rfl
    have hbefore : offset = (String.ofList front).utf8ByteSize := by
      rw [utf8ByteSize_ofList]
      rw [← byteLength_toList, hfront, byteLength_append] at hoffset
      exact Nat.add_right_cancel hoffset
    have hslice : Span.slice? ⟨offset, offset + c.utf8Size⟩ source.toList = some [c] := by
      have h := Span.slice?_append front [c] rest
      rw [byteLength_append] at h
      rwa [hbefore, utf8ByteSize_ofList, hfront]
    have hsource : source = String.ofList front ++ (String.singleton c ++ String.ofList rest) := by
      rw [← String.ofList_toList (s := source), hfront, String.ofList_append,
        String.ofList_cons]
    rw [hlex]
    refine ⟨.ofList front, c, .ofList rest, lexemes, hsource, rfl, ?_, ?_, ?_, hblank, ?_, ?_, ?_⟩
    · rw [← hbefore]
      rfl
    · exact hslice
    · rw [SyntaxError.of, hbefore]
      conv_lhs => rw [hsource]
      exact SyntaxError.remainingFrom_append _ _
    · rw [String.toList_ofList]
      exact fun m => eq_point_of_munch hmunch
    · rw [lex_eq_ok, String.toList_ofList]
      exact (hscans.cut hfront).scan
    · exact hscans.tiles_source hoffset

end Heightfield
