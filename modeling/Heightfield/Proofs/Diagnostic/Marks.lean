import Heightfield.Build
import Heightfield.Proofs.Token.Layout
import Heightfield.Proofs.Token.Scanning

/-! Which characters a report marks. A span counts bytes and a report counts characters; up to the
first character of more than one byte this makes no difference. Tokens are all before that
character, so the only error that reaches behind its start is the one about the character itself. -/

namespace Heightfield

open Text

/-- How many characters stand before byte `n`, if it is the offset of a character or the end. -/
def Text.charsBefore? (cs : List Char) (n : Nat) : Option Nat := (takeBytes? cs n).map List.length

theorem Text.charsBefore?_append (as bs : List Char) :
    charsBefore? (as ++ bs) (byteLength as) = some as.length := by
  rw [charsBefore?, takeBytes?_append]
  rfl

theorem Text.Ascii.charsBefore? {cs : List Char} (h : Ascii cs) {n : Nat} (hn : n ≤ cs.length) :
    charsBefore? cs n = some n := by
  have htake : Ascii (cs.take n) := fun c hc => h c (List.mem_of_mem_take hc)
  have hcut := charsBefore?_append (cs.take n) (cs.drop n)
  rwa [List.take_append_drop, htake.byteLength, List.length_take_of_le hn] at hcut

/-- The range of the characters that the bytes of the span make up. -/
def Span.characters? (s : Span) (source : List Char) : Option Span := do
  let start ← charsBefore? source s.start
  let stop ← charsBefore? source s.stop
  pure ⟨start, stop⟩

theorem Span.clamp_of_le {s : Span} {length : Nat} (hstart : s.start ≤ s.stop)
    (hstop : s.stop ≤ length) : s.clamp length = s := by
  rw [clamp, Nat.min_eq_left (Nat.le_trans hstart hstop), Nat.min_eq_left hstop,
    Nat.max_eq_left hstart]

theorem Span.characters?_ascii {source : String} (h : Ascii source.toList) (s : Span) :
    (s.clamp source.utf8ByteSize).characters? source.toList =
      some (s.clamp source.utf8ByteSize) := by
  have hlength : source.utf8ByteSize = source.toList.length := by
    rw [← byteLength_toList, h.byteLength]
  have hstop := s.clamp_stop_le source.utf8ByteSize
  have hstart := Nat.le_trans (s.clamp_start_le_stop source.utf8ByteSize) hstop
  rw [hlength] at hstart hstop ⊢
  rw [characters?, h.charsBefore? hstart, h.charsBefore? hstop]
  rfl

/-- Between the characters `before` and those behind `c` stand the bytes of `c`. -/
theorem Span.characters?_char (before after : List Char) (c : Char) :
    characters? ⟨byteLength before, byteLength before + c.utf8Size⟩ (before ++ c :: after) =
      some ⟨before.length, before.length + 1⟩ := by
  have hstop := charsBefore?_append (before ++ [c]) after
  rw [byteLength_append, List.append_assoc, List.length_append] at hstop
  have hbyte : byteLength [c] = c.utf8Size := rfl
  rw [List.cons_append, List.nil_append, hbyte, List.length_singleton] at hstop
  rw [characters?, charsBefore?_append, hstop]
  rfl

namespace BuildError

def span : BuildError → Span
  | parse e => e.span
  | compile e => e.span

/-- The error is that `c` begins no token. -/
def Strays (c : Char) : BuildError → Prop
  | parse e => e.cause = .unexpectedCharacter (String.singleton c)
  | compile _ => False

theorem diagnostic_span (err : BuildError) : err.diagnostic.span = some err.span := by
  cases err with
  | parse e =>
    simp only [diagnostic, SyntaxError.diagnostic]
    split <;> rfl
  | compile e =>
    cases e with
    | unresolvedReference name span similar => cases similar <;> rfl
    | _ => rfl

theorem markedRange_eq (err : BuildError) (source : String) :
    err.diagnostic.markedRange source = some (err.span.clamp source.utf8ByteSize) := by
  rw [Diagnostic.markedRange, diagnostic_span]
  rfl

end BuildError

theorem ascii_of_lex {source : String} {lexemes : List Lexeme} (h : lex source = .ok lexemes) :
    Ascii source.toList := by
  obtain ⟨front, hfront, hascii⟩ := (Lexer.scans_of_ok (lex_eq_ok.1 h)).read
  rw [hfront, List.append_nil]
  exact hascii

/-- Once the tokens are read, no error is about a character. -/
theorem BuildError.not_strays {source : String} {err : BuildError} {lexemes : List Lexeme}
    (hlex : lex source = .ok lexemes) (h : build source = .error err) (c : Char) :
    ¬ err.Strays c := by
  obtain ⟨e, hparse, rfl⟩ | ⟨tree, e, -, -, rfl⟩ := build_eq_error.1 h
  · have htokens : parseTokens .standard Parser.anyCore lexemes source = .error e := by
      rwa [Heightfield.parse, hlex] at hparse
    rw [parseTokens] at htokens
    split at htokens
    · cases htokens
    · cases htokens
      rw [Strays, SyntaxError.ofFurthest_cause]
      intro hcause
      cases hcause
  · exact id

theorem build_of_lex_error {source : String} {e : SyntaxError} (h : lex source = .error e) :
    build source = .error (.parse e) := by
  refine build_eq_error.2 (.inl ⟨e, ?_, rfl⟩)
  rw [parse, h]
  rfl

/-- Before the character that begins no token all others have one byte. -/
theorem exists_of_lex_error {source : String} {e : SyntaxError} (h : lex source = .error e) :
    ∃ front c rest, source.toList = front ++ c :: rest ∧ Ascii front ∧
      e.cause = .unexpectedCharacter (String.singleton c) ∧
      e.span = ⟨byteLength front, byteLength front + c.utf8Size⟩ := by
  rw [lex] at h
  cases hscan : Lexer.scan source.toList 0 with
  | ok lexemes =>
    rw [hscan] at h
    cases h
  | error stray =>
    rw [hscan] at h
    cases h
    obtain ⟨lexemes, rest, hscans, -, -, hoffset⟩ := Lexer.scans_of_error hscan
    obtain ⟨front, hfront, hascii⟩ := hscans.read
    rw [hfront, byteLength_append, Nat.zero_add] at hoffset
    refine ⟨front, stray.char, rest, hfront, hascii, rfl, ?_⟩
    rw [← Nat.add_right_cancel hoffset]
    rfl

/-- A report begins to mark where the error's span begins. It ends there as well, unless the error
is about a character of more than one byte, whose bytes it takes for so many characters. -/
theorem build_report_marks {source : String} {err : BuildError} (h : build source = .error err) :
    ∃ marked selected, err.diagnostic.markedRange source = some marked ∧
      (err.span.clamp source.utf8ByteSize).characters? source.toList = some selected ∧
      marked.start = selected.start ∧
      (marked = selected ↔ ∀ c, err.Strays c → c.val ≤ 127) ∧
      ∀ c, err.Strays c → selected.stop = selected.start + 1 ∧
        marked.stop = selected.start + c.utf8Size := by
  rw [err.markedRange_eq]
  cases hlex : lex source with
  | ok lexemes =>
    have hnot := BuildError.not_strays hlex h
    refine ⟨_, _, rfl, Span.characters?_ascii (ascii_of_lex hlex) err.span, rfl, ?_, ?_⟩
    · exact iff_of_true rfl fun c hc => absurd hc (hnot c)
    · exact fun c hc => absurd hc (hnot c)
  | error e =>
    rw [build_of_lex_error hlex] at h
    cases h
    obtain ⟨front, c, rest, hsource, hascii, hcause, hspan⟩ := exists_of_lex_error hlex
    have hstrays : ∀ d, (BuildError.parse e).Strays d ↔ c = d := by
      intro d
      rw [BuildError.Strays, hcause, SyntaxError.Cause.unexpectedCharacter.injEq,
        String.singleton_inj]
    have hclamp : e.span.clamp source.utf8ByteSize = e.span := by
      rw [hspan, ← byteLength_toList, hsource, byteLength_append]
      exact Span.clamp_of_le (Nat.le_add_right _ _)
        (Nat.add_le_add_left (Nat.le_add_right _ (byteLength rest)) _)
    have hselected := Span.characters?_char front rest c
    rw [← hsource, ← hspan] at hselected
    rw [hascii.byteLength] at hspan
    simp only [BuildError.span, hclamp, hstrays, forall_eq']
    refine ⟨_, _, rfl, hselected, ?_, ?_, rfl, ?_⟩
    · rw [hspan]
    · rw [hspan, ← Char.utf8Size_eq_one_iff]
      simp only [Span.mk.injEq, true_and, Nat.add_left_cancel_iff]
    · rw [hspan]

/-- A dollar sign before a letter of two bytes is marked alone. -/
theorem dollar_marked : ∃ err, build "x + $ + é" = .error err ∧ err.Strays '$' ∧
    ∃ marked, err.diagnostic.markedRange "x + $ + é" = some marked ∧
      (err.span.clamp "x + $ + é".utf8ByteSize).characters? "x + $ + é".toList = some marked := by
  have hlex : lex "x + $ + é" =
      .error (.of (.unexpectedCharacter "$") ⟨4, 5⟩ [] "x + $ + é") := by cbv
  have hbuild := build_of_lex_error hlex
  obtain ⟨marked, selected, hmarked, hselected, -, hsame, -⟩ := build_report_marks hbuild
  have hmark : marked = selected := by
    refine hsame.2 fun c hc => ?_
    cases (String.singleton_inj.1 (SyntaxError.Cause.unexpectedCharacter.inj hc) : '$' = c)
    decide
  rw [← hmark] at hselected
  exact ⟨_, hbuild, rfl, marked, hmarked, hselected⟩

/-- The letter at the front is marked together with the blank behind it. -/
theorem letter_marked_with_blank : ∃ err, build "é + x" = .error err ∧
    err.diagnostic.markedRange "é + x" = some ⟨0, 2⟩ ∧
    (err.span.clamp "é + x".utf8ByteSize).characters? "é + x".toList = some ⟨0, 1⟩ := by
  have hlex : lex "é + x" = .error (.of (.unexpectedCharacter "é") ⟨0, 2⟩ [] "é + x") := by cbv
  have hclamp : Span.clamp ⟨0, 2⟩ "é + x".utf8ByteSize = ⟨0, 2⟩ :=
    Span.clamp_of_le (by decide) (by decide)
  refine ⟨_, build_of_lex_error hlex, ?_, ?_⟩
  · rw [BuildError.markedRange_eq]
    exact congrArg some hclamp
  · refine (congrArg (Span.characters? · _) hclamp).trans ?_
    decide

end Heightfield
