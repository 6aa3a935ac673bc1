import Heightfield.Diagnostic.Rendering
import Heightfield.Text.Lines
import Heightfield.Text.Width

/-! Diagnostics with the source they talk about: the marked lines, the mark, and the label at its
end. The numbers of the span are taken as character offsets. -/

namespace Heightfield.Report

/-- A line of the source and the offset at which it starts. -/
structure Line where
  /-- Counted from zero. -/
  index : Nat
  start : Nat
  /-- With its terminator. -/
  chars : List Char
deriving DecidableEq, Inhabited

/-- Numbers and places lines. -/
def place : Nat → Nat → List (List Char) → List Line
  | _, _, [] => []
  | index, start, line :: lines =>
    ⟨index, start, line⟩ :: place (index + 1) (start + line.length) lines

/-- The line of an offset: the last that starts at or before it, if the text reaches that far. -/
def lineAt? (source : List Char) (offset : Nat) : Option Line :=
  if source.length < offset then none
  else ((place 0 0 (Text.lines source)).filter (·.start ≤ offset)).getLast?

namespace Line

def number (l : Line) : Nat := l.index + 1

/-- The offset behind the terminator. -/
def stop (l : Line) : Nat := l.start + l.chars.length

/-- What is shown of the line: no white space at its end. -/
def shown (l : Line) : List Char := (l.chars.reverse.dropWhile Text.isSpace).reverse

/-- Width of column `i`. A tab reaches to the next multiple of four characters; other white space
and everything behind the shown text is one wide. -/
def width (l : Line) (i : Nat) : Nat :=
  match l.shown[i]? with
  | none => 1
  | some '\t' => 4 - i % 4
  | some c => if Text.isSpace c then 1 else Text.columns c

/-- The shown text with blanks for its white space. -/
def text (l : Line) : String :=
  String.join (l.shown.zipIdx.map fun (c, i) =>
    if Text.isSpace c then String.ofList (List.replicate (l.width i) ' ') else c.toString)

end Line

/-- `first` and then copies of `next`, `width` characters in all. -/
def fill (first next : Char) : Nat → String
  | 0 => ""
  | n + 1 => String.ofList (first :: List.replicate n next)

def blanks (n : Nat) : String := String.ofList (List.replicate n ' ')

def rule (n : Nat) : String := String.ofList (List.replicate n '─')

/-- The mark under a line and the label below it, from column `first` up to before `last`. -/
def markRows (line : Line) (first last : Nat) (margin label : String) : String :=
  let columns := List.range (last + 2)
  let middle := (first + last) / 2
  let inside (i : Nat) : Bool := first ≤ i && i < last
  let mark := columns.map fun i =>
    if i = middle then if inside i then fill '┬' '─' (line.width i) else fill '│' ' ' (line.width i)
    else if inside i then rule (line.width i)
    else blanks (line.width i)
  let arm := columns.map fun i =>
    if i < middle then blanks (line.width i)
    else if i = middle then fill '╰' '─' (line.width i)
    else rule (line.width i)
  margin ++ String.join mark ++ "\n" ++ margin ++ String.join arm ++ " " ++ label ++ "\n"

/-- A line number, right-aligned, and the bar after it. -/
def numbered (digits : Nat) (line : Line) : String :=
  let number := toString line.number
  " " ++ blanks (digits - number.length) ++ number ++ " │ "

/-- Marked text within one line. A mark that reaches past the line shows neither. -/
def inlineRows (line : Line) (span : Span) (digits : Nat) (margin : String)
    (label : Option String) : String :=
  if span.stop ≤ line.stop then
    numbered digits line ++ line.text ++ "\n" ++
      match label with
      | some text => markRows line (span.start - line.start) (span.stop - line.start) margin text
      | none => ""
  else margin ++ "\n"

/-- Stands for the lines that a mark over several lines passes by. -/
def gapRow (digits : Nat) : String := blanks (digits + 2) ++ "┆ ┆   \n"

/-- The last line of a mark over several lines, and the arm from it to the label. -/
def armRows (bottom : Line) (digits : Nat) (margin label : String) : String :=
  let width := (List.range (bottom.chars.length + 2)).foldl (· + bottom.width ·) 0
  numbered digits bottom ++ "├─▶ " ++ bottom.text ++ "\n" ++
    margin ++ "│   " ++ blanks width ++ "\n" ++
    margin ++ "╰───" ++ rule width ++ " " ++ label ++ "\n"

/-- Marked text over several lines: the first and the last are shown, and an arm joins them. A mark
that reaches past the last line passes it by, and its label with it. Without a label no line is
shown, and a gap only if the mark takes the first line from its start. -/
def multilineRows (top bottom : Line) (span : Span) (digits : Nat) (margin : String) :
    Option String → String
  | none => if span.start = top.start then blanks (digits + 2) ++ "┆ \n" else margin ++ "\n"
  | some label =>
    numbered digits top ++ "╭─▶ " ++ top.text ++ "\n" ++
      if bottom.stop < span.stop then gapRow digits
      else (if top.index + 1 < bottom.index then gapRow digits else "") ++
        armRows bottom digits margin label

/-- What the rows of the foot leave to the arm: its columns, and its bar if the mark begins with the
second line of the source. -/
def footArm (top bottom : Line) (span : Span) : Option String → String
  | none => ""
  | some _ =>
    if top.index = bottom.index then ""
    else if top.index = 1 ∧ span.start = top.start then "│   "
    else "    "

def footRow (margin title text : String) : String :=
  margin ++ "\n" ++ margin ++ title ++ ": " ++ text ++ "\n"

/-- Everything below the message. Only the last note is shown, and no replacement. -/
def body (d : Diagnostic) (span : Span) (top bottom : Line) : String :=
  let digits := (toString bottom.number).length
  let indent := blanks (digits + 2)
  let margin := indent ++ "│ "
  let footMargin := margin ++ footArm top bottom span d.label
  indent ++ "╭─[<unknown>:" ++ toString top.number ++ ":" ++
    toString (span.start - top.start + 1) ++ "]\n" ++ indent ++ "│\n" ++
    (if top.index = bottom.index then inlineRows top span digits margin d.label
      else multilineRows top bottom span digits margin d.label) ++
    (match d.help with
      | some help => footRow footMargin "Help" help.message
      | none => "") ++
    (match d.notes.getLast? with
      | some note => footRow footMargin "Note" note
      | none => "") ++
    rule (digits + 2) ++ "╯\n"

def title : Severity → String
  | .error => "Error" | .warning => "Warning" | .note => "Advice"

end Report

namespace Diagnostic

/-- The range that a report marks, in characters of the source. -/
def markedRange (d : Diagnostic) (source : String) : Option Span :=
  d.span.map (·.clamp source.utf8ByteSize)

/-- The diagnostic with its source. Without a span it is the plain rendering, and without a line to
mark the message alone. -/
def report (d : Diagnostic) (source : String) : String :=
  match d.markedRange source with
  | none => d.plain
  | some span =>
    let chars := source.toList
    Report.title d.severity ++ ": " ++ d.message ++ "\n" ++
      match Report.lineAt? chars span.start,
          Report.lineAt? chars (if span.start = span.stop then span.start else span.stop - 1) with
      | some top, some bottom => Report.body d span top bottom
      | _, _ => ""

end Diagnostic

end Heightfield
