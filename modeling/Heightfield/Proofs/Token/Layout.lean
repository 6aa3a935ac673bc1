import Heightfield.Proofs.Grammar.Expectation
import Heightfield.Proofs.Grammar.Mirror
import Heightfield.Proofs.Grammar.Places

/-! Tokens written down with blanks between them are read back, each from where it was written; how
many blanks there are, and which, changes no more than the spans of what is parsed. -/

namespace Heightfield

open Lexer Text

/-- The payloads that have a spelling of their own. A name is `[A-Za-z_][A-Za-z0-9_]*` and no
keyword, a number `0|[1-9][0-9]*` or `(0|[1-9][0-9]*)?\.[0-9]*` and no point alone. -/
def Token.Patterned : Token → Prop
  | .ident name => (∀ word : Keyword, word.spelling ≠ name) ∧
      ∃ c cs, name.toList = c :: cs ∧ (c.isAlpha = true ∨ c = '_') ∧
        ∀ d ∈ cs, d.isAlphanum = true ∨ d = '_'
  | .number digits => digits ≠ "." ∧ ∃ ds, Decimal.Whole ds ∧
      (digits.toList = ds ∧ ds ≠ [] ∨
        ∃ fs, digits.toList = ds ++ '.' :: fs ∧ ∀ c ∈ fs, c.isDigit = true)
  | _ => True

theorem Lexer.ofWord_eq_ident {name : String} (h : ∀ word : Keyword, word.spelling ≠ name) :
    ofWord name = .ident name := by
  have hnone : Keyword.all.find? (·.spelling = name) = none :=
    List.find?_eq_none.2 fun word _ => by simpa using h word
  rw [ofWord, hnone]

theorem Token.Patterned.wellFormed {t : Token} (h : t.Patterned) : t.WellFormed := by
  cases t with
  | ident name =>
    obtain ⟨hkeyword, c, cs, hname, hc, hcs⟩ := h
    exact ⟨⟨c, cs, hname, isWord_iff.2 ⟨hc, hcs⟩⟩, ofWord_eq_ident hkeyword⟩
  | number digits =>
    obtain ⟨hpoint, ds, hds, ⟨rfl, hne⟩ | ⟨fs, hdigits, hfs⟩⟩ := h
    · exact .whole hds hne
    · have hne : ds ≠ [] ∨ fs ≠ [] := by
        rw [or_iff_not_and_not, not_not, not_not]
        rintro ⟨rfl, rfl⟩
        exact hpoint (String.toList_inj.1 hdigits)
      rw [Token.WellFormed, hdigits]
      exact .pointed hds hfs hne
  | _ => trivial

/-- Spaces, tabs, ends of lines and form feeds. -/
def Blanks (gap : List Char) : Prop := ∀ c ∈ gap, c ∈ [' ', '\t', '\r', '\n', '\x0c']

theorem Blanks.isBlank {gap : List Char} (h : Blanks gap) : ∀ c ∈ gap, isBlank c = true := by
  intro c hc
  have hmem := h c hc
  simp only [List.mem_cons, List.not_mem_nil, or_false] at hmem
  rcases hmem with rfl | rfl | rfl | rfl | rfl <;> rfl

/-- No token goes on behind a blank. -/
theorem Token.ends_of_isBlank (t : Token) {rest : List Char}
    (h : ∀ c, rest.head? = some c → isBlank c = true) : t.Ends rest := by
  have hword : ∀ c, rest.head? = some c → continuesWord c = false ∧ c.isDigit = false ∧
      c ≠ '.' ∧ c ≠ '=' := by
    intro c hc
    have hblank := of_decide_eq_true (h c hc)
    simp only [List.mem_cons, List.not_mem_nil, or_false] at hblank
    rcases hblank with rfl | rfl | rfl | rfl | rfl <;> decide
  have hequals : rest.head? ≠ some '=' := fun hc => (hword _ hc).2.2.2 rfl
  cases t with
  | keyword word => exact fun c hc => (hword c hc).1
  | ident name => exact fun c hc => (hword c hc).1
  | number digits => exact fun c hc => ⟨(hword c hc).2.1, (hword c hc).2.2.1⟩
  | operator op => cases op <;> first | exact hequals | trivial
  | equals => exact hequals
  | _ => trivial

/-- Tokens, each with the blanks behind it. -/
abbrev Layout := List (Token × List Char)

namespace Layout

def tokens (layout : Layout) : List Token := layout.map (·.1)

def text : Layout → List Char
  | [] => []
  | (t, gap) :: rest => t.spelling.toList ++ (gap ++ text rest)

/-- Nothing but blanks stands between tokens, and at least one does. -/
def Spaced : Layout → Prop
  | [] => True
  | (_, gap) :: rest => Blanks gap ∧ (rest ≠ [] → gap ≠ []) ∧ Spaced rest

/-- The tokens where they are written, if the text stands at byte `offset`. -/
def lexemes : Layout → Nat → List Lexeme
  | [], _ => []
  | (t, gap) :: rest, offset =>
    let stop := offset + byteLength t.spelling.toList
    ⟨t, ⟨offset, stop⟩⟩ :: lexemes rest (stop + byteLength gap)

/-- The whole source, with blanks before the first token. -/
def source (lead : List Char) (layout : Layout) : String := .ofList (lead ++ layout.text)

theorem lexemes_tokens (layout : Layout) (offset : Nat) :
    (layout.lexemes offset).map (·.token) = layout.tokens := by
  induction layout generalizing offset with
  | nil => rfl
  | cons item rest ih => exact congrArg (item.1 :: ·) (ih _)

end Layout

theorem Lexer.scan_blanks {gap : List Char} (h : Blanks gap) (cs : List Char) (offset : Nat) :
    scan (gap ++ cs) offset = scan cs (offset + byteLength gap) := by
  induction gap generalizing offset with
  | nil => rfl
  | cons c gap ih =>
    obtain ⟨hc, hgap⟩ := List.forall_mem_cons.1 h
    have hblank := h.isBlank c List.mem_cons_self
    rw [List.cons_append, scan_blank hblank, ih hgap, byteLength_blank hblank, Nat.add_assoc]

theorem Layout.scan {layout : Layout} (hspaced : layout.Spaced)
    (hformed : ∀ t ∈ layout.tokens, t.WellFormed) (offset : Nat) :
    Lexer.scan layout.text offset = .ok (layout.lexemes offset) := by
  induction layout generalizing offset with
  | nil => rw [text, Lexer.scan, lexemes]
  | cons item rest ih =>
    obtain ⟨t, gap⟩ := item
    obtain ⟨hgap, hnext, hrest⟩ := hspaced
    obtain ⟨ht, hrest'⟩ := List.forall_mem_cons.1 hformed
    have hends : t.Ends (gap ++ text rest) := by
      refine t.ends_of_isBlank fun c hc => ?_
      cases gap with
      | cons d gap =>
        cases hc
        exact hgap.isBlank c List.mem_cons_self
      | nil =>
        obtain rfl : rest = [] := by
          by_contra hne
          exact hnext hne rfl
        cases hc
    obtain ⟨c, cs, hspelling, hmunch⟩ := munch_spelling t ht hends
    rw [text, hspelling, List.cons_append, scan_token hspelling hmunch, scan_blanks hgap,
      ih hrest hrest', ← byteLength_spelling hspelling hmunch, ← hspelling]
    rfl

theorem Layout.lex {lead : List Char} {layout : Layout} (hlead : Blanks lead)
    (hspaced : layout.Spaced) (hformed : ∀ t ∈ layout.tokens, t.WellFormed) :
    Heightfield.lex (layout.source lead) = .ok (layout.lexemes (byteLength lead)) := by
  rw [lex_eq_ok, source, String.toList_ofList, scan_blanks hlead, layout.scan hspaced hformed,
    Nat.zero_add]

theorem SyntaxError.ofFurthest_cause (f : Furthest) (lexemes : List Lexeme) (source : String) :
    (ofFurthest f lexemes source).cause = .unexpectedToken
      ((lexemes.map (·.token))[(lexemes.map (·.token)).length - f.left]?.map Token.describe) := by
  unfold ofFurthest
  rw [List.getElem?_map, List.length_map]
  cases lexemes[lexemes.length - f.left]? <;> rfl

/-- Trees that differ in spans alone, or errors that say the same of different places. -/
def SameAnswer : Except SyntaxError Expr → Except SyntaxError Expr → Prop
  | .ok e, .ok e' => e.bare = e'.bare
  | .error error, .error error' => error.cause = error'.cause ∧ error.expected = error'.expected
  | _, _ => False

/-- The parser sees of a source no more than its tokens. -/
theorem parse_sameAnswer {source source' : String} {lexemes lexemes' : List Lexeme}
    (hlex : lex source = .ok lexemes) (hlex' : lex source' = .ok lexemes')
    (h : lexemes.map (·.token) = lexemes'.map (·.token)) :
    SameAnswer (parse source) (parse source') := by
  have hparse : parse source = parseTokens .standard Parser.anyCore lexemes source := by
    rw [parse, hlex]
    rfl
  have hparse' : parse source' = parseTokens .standard Parser.anyCore lexemes' source' := by
    rw [parse, hlex']
    rfl
  rw [hparse, hparse']
  obtain ⟨e, e', hr, hr', he⟩ | ⟨f, hr, hr'⟩ :=
    parseTokens_mirrored (fun _ _ => Or.inl) (forall₂_token h) source source'
  · rw [hr, hr']
    refine he.bare ?_
    rintro n n' ⟨l, l', hl, hn, hn'⟩
    have htoken := (Lexeme.ident?_eq_some.1 hn).1
    rw [hl, (Lexeme.ident?_eq_some.1 hn').1] at htoken
    exact (Token.ident.inj htoken).symm
  · rw [hr, hr']
    constructor
    · rw [SyntaxError.ofFurthest_cause, SyntaxError.ofFurthest_cause, h]
    · rw [SyntaxError.ofFurthest_expected, SyntaxError.ofFurthest_expected]

/-- Tokens with blanks between them are read back where they are written, and other blanks between
the same tokens make no difference to what is parsed but for its place. -/
theorem lex_layout {lead : List Char} {layout : Layout} (hlead : Blanks lead)
    (hspaced : layout.Spaced) (hpatterned : ∀ t ∈ layout.tokens, t.Patterned) :
    lex (layout.source lead) = .ok (layout.lexemes (byteLength lead)) ∧
      ∀ (lead' : List Char) (layout' : Layout), Blanks lead' → layout'.Spaced →
        layout'.tokens = layout.tokens →
          SameAnswer (parse (layout.source lead)) (parse (layout'.source lead')) := by
  have hformed : ∀ t ∈ layout.tokens, t.WellFormed := fun t ht => (hpatterned t ht).wellFormed
  have hlex := layout.lex hlead hspaced hformed
  refine ⟨hlex, fun lead' layout' hlead' hspaced' htokens => ?_⟩
  have hlex' := layout'.lex hlead' hspaced' (htokens ▸ hformed)
  refine parse_sameAnswer hlex hlex' ?_
  rw [Layout.lexemes_tokens, Layout.lexemes_tokens, htokens]

/-- `let a = 1. in a` over several lines. -/
theorem brokenLines_read :
    lex "\n\tlet a =\x0c1. in\r\na" = .ok [⟨.keyword .letKw, ⟨2, 5⟩⟩, ⟨.ident "a", ⟨6, 7⟩⟩,
      ⟨.equals, ⟨8, 9⟩⟩, ⟨.number "1.", ⟨10, 12⟩⟩, ⟨.keyword .inKw, ⟨13, 15⟩⟩,
      ⟨.ident "a", ⟨17, 18⟩⟩] ∧
    SameAnswer (parse "\n\tlet a =\x0c1. in\r\na") (parse "let a = 1. in a") := by
  have h := @lex_layout ['\n', '\t'] [(.keyword .letKw, [' ']), (.ident "a", [' ']),
    (.equals, ['\x0c']), (.number "1.", [' ']), (.keyword .inKw, ['\r', '\n']), (.ident "a", [])]
    (by simp [Blanks]) (by simp [Layout.Spaced, Blanks]) (by
      have hname : (Token.ident "a").Patterned :=
        ⟨fun word => by cases word <;> decide, 'a', [], rfl, .inl rfl, List.forall_mem_nil _⟩
      have hnumber : (Token.number "1.").Patterned :=
        ⟨by decide, ['1'], ⟨List.forall_mem_singleton.2 rfl, by decide⟩,
          .inr ⟨[], rfl, List.forall_mem_nil _⟩⟩
      simp only [Layout.tokens, List.map, List.forall_mem_cons]
      exact ⟨trivial, hname, trivial, hnumber, trivial, hname, List.forall_mem_nil _⟩)
  exact ⟨h.1, h.2 [] [(.keyword .letKw, [' ']), (.ident "a", [' ']), (.equals, [' ']),
    (.number "1.", [' ']), (.keyword .inKw, [' ']), (.ident "a", [])]
    (List.forall_mem_nil _) (by simp [Layout.Spaced, Blanks]) rfl⟩

end Heightfield
