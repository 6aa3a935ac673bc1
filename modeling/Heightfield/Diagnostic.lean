import Heightfield.Span

/-! What is told to a reader about one place in a source: a message, where it points, notes, and at
most one suggested change. -/

namespace Heightfield

inductive Severity
  /-- The source was refused. -/
  | error
  /-- Something in the source has no use. -/
  | warning
  /-- Something in the source may surprise. -/
  | note
deriving DecidableEq, Inhabited

def Severity.name : Severity → String
  | .error => "error" | .warning => "warning" | .note => "note"

/-- A suggested change, with the text to put in place of the marked one where that is known. -/
structure Help where
  message : String
  replacement : Option String := none
deriving DecidableEq, Inhabited

structure Diagnostic where
  severity : Severity
  message : String
  span : Option Span := none
  label : Option String := none
  notes : List String := []
  help : Option Help := none
deriving DecidableEq, Inhabited

namespace Diagnostic

def error (message : String) : Diagnostic := { severity := .error, message }

def warning (message : String) : Diagnostic := { severity := .warning, message }

def note (message : String) : Diagnostic := { severity := .note, message }

def located (d : Diagnostic) (span : Span) : Diagnostic := { d with span := some span }

def labelled (d : Diagnostic) (label : String) : Diagnostic := { d with label := some label }

/-- Adds a note after those already there. -/
def noting (d : Diagnostic) (note : String) : Diagnostic := { d with notes := d.notes ++ [note] }

/-- Sets the help; an earlier one gives way. -/
def helping (d : Diagnostic) (message : String) : Diagnostic :=
  { d with help := some { message } }

def suggesting (d : Diagnostic) (message replacement : String) : Diagnostic :=
  { d with help := some { message, replacement := some replacement } }

/-- The diagnostic in one line, for a log. -/
def summary (d : Diagnostic) : String :=
  d.severity.name ++ ": " ++ d.message ++
    match d.span with
    | some span => " (at " ++ span.text ++ ")"
    | none => ""

end Diagnostic

end Heightfield
