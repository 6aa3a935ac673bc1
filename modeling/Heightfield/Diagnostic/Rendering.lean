import Heightfield.Diagnostic

/-! Diagnostics as text, with or without terminal colours. Without them a diagnostic is a sequence of
lines. With them it is a list of pieces, and a style wraps its piece in an escape sequence and a
reset. -/

namespace Heightfield

inductive Style
  | bold | red | yellow | cyan | blue | grey | green | boldGreen | italicGreen
deriving DecidableEq, Inhabited

/-- Parameters of the escape sequence that turns the style on. -/
def Style.codes : Style → String
  | .bold => "1"
  | .red => "1;31"
  | .yellow => "1;33"
  | .cyan => "1;36"
  | .blue => "1;34"
  | .grey => "90"
  | .green => "32"
  | .boldGreen => "1;32"
  | .italicGreen => "3;32"

/-- The escape sequence that turns the style on. -/
def Style.opening (s : Style) : List Char := '\x1b' :: '[' :: s.codes.toList ++ ['m']

/-- The escape sequence that turns every style off. -/
def Style.reset : List Char := ['\x1b', '[', '0', 'm']

/-- Text that turns styles off itself has this one turned on again behind each such place. -/
def Style.resume (s : Style) : List Char → List Char
  | '\x1b' :: '[' :: '0' :: 'm' :: cs => Style.reset ++ s.opening ++ s.resume cs
  | c :: cs => c :: s.resume cs
  | [] => []

/-- Text without an escape character stays as it is. -/
theorem Style.resume_of_plain (s : Style) {cs : List Char} (h : '\x1b' ∉ cs) :
    s.resume cs = cs := by
  induction cs with
  | nil => rfl
  | cons c cs ih =>
    simp only [List.mem_cons, not_or] at h
    rw [Style.resume, ih h.2]
    rintro _ rfl
    exact absurd rfl h.1

def Severity.style : Severity → Style
  | .error => .red | .warning => .yellow | .note => .cyan

structure Piece where
  text : String
  style : Option Style := none
deriving DecidableEq, Inhabited

namespace Piece

/-- A styled piece is wrapped even if it is empty. -/
def colored (p : Piece) : String :=
  match p.style with
  | none => p.text
  | some style => String.ofList (style.opening ++ style.resume p.text.toList ++ Style.reset)

end Piece

namespace Diagnostic

def spanPieces : Option Span → List Piece
  | none => []
  | some span => [⟨"  ", none⟩, ⟨"-->", some .blue⟩, ⟨" " ++ span.text ++ "\n", none⟩]

def notePieces (note : String) : List Piece :=
  [⟨"  ", none⟩, ⟨"=", some .blue⟩, ⟨" ", none⟩, ⟨"note: " ++ note, some .grey⟩, ⟨"\n", none⟩]

def replacementPieces : Option String → List Piece
  | none => []
  | some text => [⟨"        try: ", none⟩, ⟨text, some .italicGreen⟩, ⟨"\n", none⟩]

def helpPieces : Option Help → List Piece
  | none => []
  | some help =>
    [⟨"  ", none⟩, ⟨"=", some .boldGreen⟩, ⟨" ", none⟩, ⟨"help: " ++ help.message, some .green⟩,
      ⟨"\n", none⟩] ++ replacementPieces help.replacement

def pieces (d : Diagnostic) : List Piece :=
  [⟨d.severity.name, some d.severity.style⟩, ⟨": ", none⟩, ⟨d.message, some .bold⟩, ⟨"\n", none⟩] ++
    spanPieces d.span ++ d.notes.flatMap notePieces ++ helpPieces d.help

/-- The pieces with their colours. -/
def colored (d : Diagnostic) : String := String.join (d.pieces.map (·.colored))

def spanLine : Option Span → String
  | none => ""
  | some span => "  --> " ++ span.text ++ "\n"

def noteLine (note : String) : String := "  = note: " ++ note ++ "\n"

def replacementLine : Option String → String
  | none => ""
  | some text => "        try: " ++ text ++ "\n"

def helpLines : Option Help → String
  | none => ""
  | some help => "  = help: " ++ help.message ++ "\n" ++ replacementLine help.replacement

/-- The lines without colours. -/
def plain (d : Diagnostic) : String :=
  d.severity.name ++ ": " ++ d.message ++ "\n" ++ spanLine d.span ++
    String.join (d.notes.map noteLine) ++ helpLines d.help

end Diagnostic

end Heightfield
