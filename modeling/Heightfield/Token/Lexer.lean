import Heightfield.Token

/-! Longest-match lexing. `munch` reads one token from the head of a text; `scan` skips blanks,
munches, and stops at the first character that begins no token. Blanks and tokens are ASCII, so up
to that character byte offsets count characters. -/

namespace Heightfield.Lexer

/-- Space, tab, line feed, form feed, carriage return. -/
def isBlank (c : Char) : Bool := c ∈ [' ', '\t', '\n', '\x0c', '\r']

def startsWord (c : Char) : Bool := c.isAlpha || c = '_'

def continuesWord (c : Char) : Bool := c.isAlphanum || c = '_'

/-- A keyword only as a whole word: `inner` is a name. -/
def ofWord (word : String) : Token :=
  match Keyword.all.find? (·.spelling = word) with
  | some k => .keyword k
  | none => .ident word

/-- The part of a number from its point on, if it has one. -/
def fraction : List Char → List Char
  | '.' :: cs => '.' :: cs.takeWhile Char.isDigit
  | _ => []

/-- Characters of the number that begins with digit `c`. A leading zero is a whole part alone. -/
def numeral (c : Char) (cs : List Char) : List Char :=
  let whole := if c = '0' then [] else cs.takeWhile Char.isDigit
  c :: whole ++ fraction (cs.drop whole.length)

/-- The longest token that `c :: cs` begins with. A point without digits is none. -/
def munch (c : Char) (cs : List Char) : Option Token :=
  if startsWord c then some (ofWord (String.ofList (c :: cs.takeWhile continuesWord)))
  else if c.isDigit then some (.number (String.ofList (numeral c cs)))
  else match c, cs with
    | '.', d :: _ => if d.isDigit then some (.number (String.ofList (fraction (c :: cs)))) else none
    | '+', _ => some (.operator .add)
    | '-', _ => some (.operator .sub)
    | '*', _ => some (.operator .mul)
    | '/', _ => some (.operator .div)
    | '^', _ => some (.operator .pow)
    | '&', '&' :: _ => some (.operator .and)
    | '|', '|' :: _ => some (.operator .or)
    | '<', '=' :: _ => some (.operator .le)
    | '<', _ => some (.operator .lt)
    | '>', '=' :: _ => some (.operator .ge)
    | '>', _ => some (.operator .gt)
    | '=', '=' :: _ => some (.operator .eq)
    | '=', _ => some .equals
    | '!', '=' :: _ => some (.operator .ne)
    | '(', _ => some .openParen
    | ')', _ => some .closeParen
    | ',', _ => some .comma
    | _, _ => none

/-- A character that begins no token, and its offset. -/
structure Stray where
  char : Char
  offset : Nat
deriving DecidableEq

/-- All tokens of a text that stands at byte `offset`. -/
def scan (text : List Char) (offset : Nat) : Except Stray (List Lexeme) :=
  match text with
  | [] => .ok []
  | c :: cs =>
    if isBlank c then scan cs (offset + 1)
    else match munch c cs with
      | none => .error ⟨c, offset⟩
      | some token =>
        let length := token.spelling.length
        (scan (cs.drop (length - 1)) (offset + length)).map
          (⟨token, ⟨offset, offset + length⟩⟩ :: ·)
termination_by text.length
decreasing_by
  · simp
  · simp only [List.length_drop, List.length_cons]; omega

end Heightfield.Lexer
