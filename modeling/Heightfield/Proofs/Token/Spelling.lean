import Heightfield.Parse

/-! A token stands in the text where its span says, and is spelled there. -/

namespace Heightfield

theorem Text.utf8ByteSize_ofList (cs : List Char) :
    (String.ofList cs).utf8ByteSize = byteLength cs := by
  induction cs with
  | nil => rfl
  | cons c cs ih =>
    rw [String.ofList_cons, String.utf8ByteSize_append, String.utf8ByteSize_singleton, ih,
      byteLength]

theorem Text.byteLength_toList (s : String) : byteLength s.toList = s.utf8ByteSize := by
  rw [← utf8ByteSize_ofList, String.ofList_toList]

theorem SyntaxError.remainingFrom_append (before after : String) :
    remainingFrom (before ++ after) before.utf8ByteSize = after := by
  rw [remainingFrom, String.toList_append, ← Text.byteLength_toList, Text.dropBytes?_append]
  exact String.ofList_toList

/-- Each character of `cs` is a byte. -/
def Text.Ascii (cs : List Char) : Prop := ∀ c ∈ cs, c.val ≤ 127

instance (cs : List Char) : Decidable (Text.Ascii cs) :=
  List.decidableBAll _ cs

theorem Text.Ascii.cons {c : Char} {cs : List Char} (hc : c.val ≤ 127) (hcs : Ascii cs) :
    Ascii (c :: cs) :=
  List.forall_mem_cons.2 ⟨hc, hcs⟩

theorem Text.Ascii.append {as bs : List Char} (has : Ascii as) (hbs : Ascii bs) :
    Ascii (as ++ bs) :=
  List.forall_mem_append.2 ⟨has, hbs⟩

theorem Text.Ascii.byteLength {cs : List Char} (h : Ascii cs) : byteLength cs = cs.length := by
  induction cs with
  | nil => rfl
  | cons c cs ih =>
    rw [Text.byteLength, ih fun x hx => h x (List.mem_cons_of_mem c hx),
      Char.utf8Size_eq_one_iff.2 (h c List.mem_cons_self), List.length_cons, Nat.add_comm]

namespace Lexer

open Text

theorem isBlank_ascii {c : Char} (h : isBlank c = true) : c.val ≤ 127 := by
  simp only [isBlank, List.mem_cons, List.not_mem_nil, or_false, decide_eq_true_eq] at h
  rcases h with rfl | rfl | rfl | rfl | rfl <;> decide

theorem isDigit_ascii {c : Char} (h : c.isDigit = true) : c.val ≤ 127 := by
  grind [Char.isDigit]

theorem isAlpha_ascii {c : Char} (h : c.isAlpha = true) : c.val ≤ 127 := by
  rcases Bool.or_eq_true_iff.1 h with hletter | hletter
  · exact UInt32.le_trans (of_decide_eq_true hletter).2 (by decide)
  · exact UInt32.le_trans (of_decide_eq_true (Bool.and_eq_true_iff.1 hletter).2) (by decide)

theorem continuesWord_ascii {c : Char} (h : continuesWord c = true) : c.val ≤ 127 := by
  simp only [continuesWord, Bool.or_eq_true, decide_eq_true_eq] at h
  rcases h with h | rfl
  · rcases Bool.or_eq_true_iff.1 h with h | h
    · exact isAlpha_ascii h
    · exact isDigit_ascii h
  · decide

theorem continuesWord_of_startsWord {c : Char} (h : startsWord c = true) :
    continuesWord c = true := by
  grind [startsWord, continuesWord, Char.isAlphanum]

theorem ofWord_spelling (word : String) : (ofWord word).spelling = word := by
  unfold ofWord
  split
  · next k h =>
    have hk := List.find?_some h
    exact of_decide_eq_true hk
  · rfl

theorem ascii_of_takeWhile {p : Char → Bool} (hp : ∀ c, p c = true → c.val ≤ 127)
    (cs : List Char) : Ascii (cs.takeWhile p) := by
  intro c hc
  exact hp c (List.all_eq_true.1 List.all_takeWhile c hc)

theorem fraction_spelled (cs : List Char) : fraction cs <+: cs ∧ Ascii (fraction cs) := by
  unfold fraction
  split
  · next cs =>
    exact ⟨(List.prefix_cons_inj _).2 (List.takeWhile_prefix _),
      .cons (by decide) (ascii_of_takeWhile (fun _ => isDigit_ascii) _)⟩
  · exact ⟨List.nil_prefix, nofun⟩

theorem numeral_spelled {c : Char} (hc : c.isDigit = true) (cs : List Char) :
    ∃ ds, numeral c cs = c :: ds ∧ ds <+: cs ∧ Ascii (c :: ds) := by
  have hwhole : (if c = '0' then [] else cs.takeWhile Char.isDigit) <+: cs ∧
      Ascii (if c = '0' then [] else cs.takeWhile Char.isDigit) := by
    split
    · exact ⟨List.nil_prefix, nofun⟩
    · exact ⟨List.takeWhile_prefix _, ascii_of_takeWhile (fun _ => isDigit_ascii) _⟩
  simp only [numeral]
  generalize (if c = '0' then [] else cs.takeWhile Char.isDigit) = whole at hwhole ⊢
  obtain ⟨⟨rest, rfl⟩, hascii⟩ := hwhole
  obtain ⟨hpre, hascii'⟩ := fraction_spelled rest
  rw [List.drop_left]
  exact ⟨whole ++ fraction rest, rfl, (List.prefix_append_right_inj whole).2 hpre,
    (hascii.append hascii').cons (isDigit_ascii hc)⟩

/-- The text begins with the spelling of the token that is read from it. -/
theorem munch_spelled {c : Char} {cs : List Char} {t : Token} (h : munch c cs = some t) :
    ∃ ds, t.spelling.toList = c :: ds ∧ ds <+: cs ∧ Ascii (c :: ds) := by
  unfold munch at h
  split at h
  · next hword =>
    cases h
    rw [ofWord_spelling, String.toList_ofList]
    exact ⟨_, rfl, List.takeWhile_prefix _,
      .cons (continuesWord_ascii (continuesWord_of_startsWord hword))
        (ascii_of_takeWhile (fun _ => continuesWord_ascii) _)⟩
  split at h
  · next hdigit =>
    cases h
    rw [Token.spelling, String.toList_ofList]
    exact numeral_spelled hdigit cs
  split at h
  · split at h
    · cases h
      rw [Token.spelling, String.toList_ofList]
      exact ⟨_, rfl, List.takeWhile_prefix _,
        .cons (by decide) (ascii_of_takeWhile (fun _ => isDigit_ascii) _)⟩
    · cases h
  all_goals cases h
  all_goals exact ⟨_, rfl, ⟨_, rfl⟩, by decide⟩

end Lexer

theorem lex_eq_ok {source : String} {lexemes : List Lexeme} :
    lex source = .ok lexemes ↔ Lexer.scan source.toList 0 = .ok lexemes := by
  unfold lex
  cases Lexer.scan source.toList 0 with
  | error stray => exact ⟨nofun, nofun⟩
  | ok lexemes' => exact ⟨fun h => by cases h; rfl, fun h => by cases h; rfl⟩

end Heightfield
