import Heightfield.Diagnostic.Rendering
import Mathlib.Data.String.Basic

/-! Colours are all that a coloured rendering adds. Its sequences are deleted by a scan that knows
nothing of the pieces, so what has to be seen is that the scan finds each of them where it was put
in: none begins or ends in the text of a diagnostic, and none runs on into it. -/

namespace Heightfield

namespace Text

/-- What a colour sequence carries between its bracket and its last letter. -/
def isParameter (c : Char) : Bool := c.isDigit || c = ';'

/-- What stands behind the colour sequence that a text begins with. -/
def behindColour? : List Char → Option (List Char)
  | '\x1b' :: '[' :: cs =>
    match cs.dropWhile isParameter with
    | 'm' :: rest => some rest
    | _ => none
  | _ => none

theorem length_behindColour? {cs rest : List Char} (h : behindColour? cs = some rest) :
    rest.length < cs.length := by
  unfold behindColour? at h
  split at h
  · next cs =>
    split at h
    · next rest' heq =>
      cases h
      have hle := (List.dropWhile_suffix isParameter (l := cs)).length_le
      rw [heq, List.length_cons] at hle
      simp only [List.length_cons]
      omega
    · cases h
  · cases h

/-- Deletes all colour sequences, from left to right. -/
def withoutColours (cs : List Char) : List Char :=
  match cs with
  | [] => []
  | c :: cs =>
    match _h : behindColour? (c :: cs) with
    | some rest => withoutColours rest
    | none => c :: withoutColours cs
termination_by cs.length
decreasing_by
  · exact length_behindColour? _h
  · exact Nat.lt_succ_self _

theorem withoutColours_cons_eq (c : Char) (cs : List Char) :
    withoutColours (c :: cs) = match behindColour? (c :: cs) with
      | some rest => withoutColours rest
      | none => c :: withoutColours cs := by
  rw [withoutColours]
  split
  · next heq => rw [heq]
  · next heq => rw [heq]

theorem withoutColours_sequence {cs rest : List Char} (h : behindColour? cs = some rest) :
    withoutColours cs = withoutColours rest := by
  cases cs with
  | nil => cases h
  | cons c cs => rw [withoutColours_cons_eq, h]

theorem withoutColours_cons {c : Char} (hc : '\x1b' ≠ c) (cs : List Char) :
    withoutColours (c :: cs) = c :: withoutColours cs := by
  have hnone : behindColour? (c :: cs) = none := by
    unfold behindColour?
    split
    · next heq => exact absurd (List.cons.inj heq).1.symm hc
    · rfl
  rw [withoutColours_cons_eq, hnone]

/-- No sequence begins within a text that has no escape character. -/
theorem withoutColours_append {cs : List Char} (h : '\x1b' ∉ cs) (rest : List Char) :
    withoutColours (cs ++ rest) = cs ++ withoutColours rest := by
  induction cs with
  | nil => rfl
  | cons c cs ih =>
    simp only [List.mem_cons, not_or] at h
    rw [List.cons_append, withoutColours_cons h.1, ih h.2, List.cons_append]

end Text

open Text

namespace Style

theorem codes_parameters (s : Style) : ∀ c ∈ s.codes.toList, isParameter c = true := by
  cases s <;> simp [codes, isParameter]

/-- The sequence ends where it was put in, whatever follows. -/
theorem withoutColours_opening (s : Style) (rest : List Char) :
    withoutColours (s.opening ++ rest) = withoutColours rest := by
  refine withoutColours_sequence ?_
  have hcodes : (s.codes.toList ++ 'm' :: rest).dropWhile isParameter = 'm' :: rest := by
    rw [List.dropWhile_append_of_pos s.codes_parameters]
    rfl
  simp only [opening, List.cons_append, List.append_assoc, List.nil_append, behindColour?, hcodes]

theorem withoutColours_reset (rest : List Char) :
    withoutColours (reset ++ rest) = withoutColours rest :=
  withoutColours_sequence rfl

end Style

/-- Without its colours a piece is its text. -/
theorem Piece.withoutColours_colored {p : Piece} (h : '\x1b' ∉ p.text.toList) (rest : List Char) :
    withoutColours (p.colored.toList ++ rest) = p.text.toList ++ withoutColours rest := by
  unfold colored
  split
  · exact withoutColours_append h rest
  · next style _ =>
    rw [String.toList_ofList, style.resume_of_plain h, List.append_assoc, List.append_assoc,
      style.withoutColours_opening, withoutColours_append h, Style.withoutColours_reset]

theorem Piece.withoutColours_join {ps : List Piece} (h : ∀ p ∈ ps, '\x1b' ∉ p.text.toList) :
    withoutColours (String.join (ps.map (·.colored))).toList =
      (String.join (ps.map (·.text))).toList := by
  rw [String.join_eq, String.join_eq, String.toList_ofList, String.toList_ofList]
  induction ps with
  | nil => exact withoutColours.eq_1
  | cons p ps ih =>
    obtain ⟨hp, hps⟩ := List.forall_mem_cons.1 h
    simp only [List.map_cons, List.flatten_cons]
    rw [p.withoutColours_colored hp, ih hps]

namespace Diagnostic

/-- No text of a diagnostic that is shown holds an escape character. -/
structure Unescaped (d : Diagnostic) : Prop where
  message : '\x1b' ∉ d.message.toList
  notes : ∀ note ∈ d.notes, '\x1b' ∉ note.toList
  help : ∀ help ∈ d.help, '\x1b' ∉ help.message.toList ∧
    ∀ text ∈ help.replacement, '\x1b' ∉ text.toList

theorem join_spanPieces (span : Option Span) :
    String.join ((spanPieces span).map (·.text)) = spanLine span := by
  cases span with
  | none => rfl
  | some span =>
    refine String.toList_injective ?_
    simp [spanPieces, spanLine]

theorem join_notePieces (note : String) :
    String.join ((notePieces note).map (·.text)) = noteLine note := by
  refine String.toList_injective ?_
  simp [notePieces, noteLine]

theorem join_notes (notes : List String) :
    String.join ((notes.flatMap notePieces).map (·.text)) = String.join (notes.map noteLine) := by
  induction notes with
  | nil => rfl
  | cons note notes ih =>
    rw [List.flatMap_cons, List.map_append, String.join_append, join_notePieces, ih, List.map_cons,
      String.join_cons]

theorem join_replacementPieces (replacement : Option String) :
    String.join ((replacementPieces replacement).map (·.text)) = replacementLine replacement := by
  cases replacement with
  | none => rfl
  | some text =>
    refine String.toList_injective ?_
    simp [replacementPieces, replacementLine]

theorem join_helpPieces (help : Option Help) :
    String.join ((helpPieces help).map (·.text)) = helpLines help := by
  cases help with
  | none => rfl
  | some help =>
    rw [helpPieces, List.map_append, String.join_append, join_replacementPieces]
    refine String.toList_injective ?_
    simp [helpLines]

/-- The pieces are written in the order of the lines. -/
theorem join_pieces (d : Diagnostic) : String.join (d.pieces.map (·.text)) = d.plain := by
  simp only [pieces, List.map_append, String.join_append, join_spanPieces, join_notes,
    join_helpPieces]
  refine String.toList_injective ?_
  simp [plain]

theorem escape_not_mem_name (s : Severity) : '\x1b' ∉ s.name.toList := by
  cases s <;> decide

theorem escape_not_mem_digits (n : Nat) : '\x1b' ∉ Nat.toDigits 10 n := by
  intro h
  have hdigit := Nat.isDigit_of_mem_toDigits (by decide) (Nat.le_refl 10) h
  exact absurd hdigit (by decide)

theorem escape_not_mem_spanPieces (span : Option Span) :
    ∀ p ∈ spanPieces span, '\x1b' ∉ p.text.toList := by
  cases span with
  | none => nofun
  | some span => simp [spanPieces, Span.text, escape_not_mem_digits]

theorem escape_not_mem_notePieces {note : String} (h : '\x1b' ∉ note.toList) :
    ∀ p ∈ notePieces note, '\x1b' ∉ p.text.toList := by
  simp [notePieces, h]

theorem escape_not_mem_helpPieces {help : Help} (h : '\x1b' ∉ help.message.toList)
    (hreplacement : ∀ text ∈ help.replacement, '\x1b' ∉ text.toList) :
    ∀ p ∈ helpPieces (some help), '\x1b' ∉ p.text.toList := by
  cases hr : help.replacement with
  | none => simp [helpPieces, replacementPieces, hr, h]
  | some text => simp [helpPieces, replacementPieces, hr, h, hreplacement text hr]

theorem Unescaped.pieces {d : Diagnostic} (h : d.Unescaped) :
    ∀ p ∈ d.pieces, '\x1b' ∉ p.text.toList := by
  have hhead : ∀ p ∈ [⟨d.severity.name, some d.severity.style⟩, ⟨": ", none⟩,
      ⟨d.message, some .bold⟩, (⟨"\n", none⟩ : Piece)], '\x1b' ∉ p.text.toList := by
    simp [escape_not_mem_name, h.message]
  have hnotes : ∀ p ∈ d.notes.flatMap notePieces, '\x1b' ∉ p.text.toList := by
    intro p hp
    obtain ⟨note, hnote, hp⟩ := List.mem_flatMap.1 hp
    exact escape_not_mem_notePieces (h.notes note hnote) p hp
  have hhelp : ∀ p ∈ helpPieces d.help, '\x1b' ∉ p.text.toList := by
    cases hd : d.help with
    | none => nofun
    | some help =>
      obtain ⟨hmessage, hreplacement⟩ := h.help help hd
      exact escape_not_mem_helpPieces hmessage hreplacement
  have hspan := List.forall_mem_append.2 ⟨hhead, escape_not_mem_spanPieces d.span⟩
  exact List.forall_mem_append.2 ⟨List.forall_mem_append.2 ⟨hspan, hnotes⟩, hhelp⟩

/-- The coloured rendering without its colours is the plain one. -/
theorem colored_withoutColours {d : Diagnostic} (h : d.Unescaped) :
    withoutColours d.colored.toList = d.plain.toList := by
  rw [colored, Piece.withoutColours_join h.pieces, join_pieces]

/-- The message begins like the rest of a sequence, and a note is one but for the escape character. -/
theorem bracketed_withoutColours :
    let d : Diagnostic := {
      severity := .warning, message := "0m of ground", span := some ⟨4, 11⟩,
      notes := ["[1m", ""], help := some ⟨"write 1;2", some "m"⟩ }
    d.Unescaped ∧ withoutColours d.colored.toList = (
      "warning: 0m of ground\n  --> 4..11\n  = note: [1m\n  = note: \n  = help: write 1;2\n" ++
      "        try: m\n").toList := by
  intro d
  have h : d.Unescaped := by constructor <;> decide
  refine ⟨h, (colored_withoutColours h).trans ?_⟩
  decide

end Diagnostic

end Heightfield
