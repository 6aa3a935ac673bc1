import Heightfield.Diagnostic
import Heightfield.Token

/-! Why a source is not an expression: the cause, where, what would have been accepted there, and
the source from there on. -/

namespace Heightfield

/-- What a parser was ready to accept: one fixed token, any token of a class, or the end. -/
inductive Expected
  | fixed (token : Token)
  | identifier
  | number
  | endOfInput
deriving DecidableEq, Inhabited

/-- Names and numbers are expected as classes. -/
def Expected.ofToken : Token → Expected
  | .ident _ => .identifier
  | .number _ => .number
  | t => .fixed t

def Expected.describe : Expected → String
  | .fixed t => t.describe
  | .identifier => "identifier"
  | .number => "number"
  | .endOfInput => "end of input"

namespace SyntaxError

inductive Cause
  | unexpectedCharacter (text : String)
  /-- No token was found where the input ended. -/
  | unexpectedToken (found : Option String)
  | unclosed (delimiter : String)
  | custom (message : String)
deriving DecidableEq, Inhabited

def Cause.message : Cause → String
  | .unexpectedCharacter text => "unexpected character '" ++ text ++ "'"
  | .unexpectedToken (some found) => "unexpected " ++ found
  | .unexpectedToken none => "unexpected end of input"
  | .unclosed delimiter => "unclosed delimiter " ++ delimiter
  | .custom message => message

end SyntaxError

structure SyntaxError where
  cause : SyntaxError.Cause
  span : Span
  /-- Sorted, without repetition. -/
  expected : List String
  /-- The source from the start of the span on. -/
  remaining : String
deriving DecidableEq, Inhabited

namespace SyntaxError

/-- A span that starts past the source or inside a character leaves nothing. -/
def remainingFrom (source : String) (start : Nat) : String :=
  String.ofList ((Text.dropBytes? source.toList start).getD [])

/-- Sorts by code point, and keeps one of each. -/
def normalize (expected : List String) : List String :=
  (expected.mergeSort (fun a b => decide (a ≤ b))).eraseReps

def of (cause : Cause) (span : Span) (expected : List String) (source : String) : SyntaxError :=
  ⟨cause, span, normalize expected, remainingFrom source span.start⟩

def message (e : SyntaxError) : String :=
  e.cause.message ++
    match e.expected with
    | [] => ""
    | [one] => ", expected " ++ one
    | many => ", expected one of " ++ ", ".intercalate many

def diagnostic (e : SyntaxError) : Diagnostic :=
  let d := ((Diagnostic.error e.cause.message).located e.span).labelled "here"
  if e.expected.isEmpty then d
  else d.noting ("expected one of: " ++ ", ".intercalate e.expected)

end SyntaxError

end Heightfield
