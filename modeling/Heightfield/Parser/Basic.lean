import Heightfield.SyntaxError

/-! Parsers over tokens, with ordered choice and full backtracking. Besides its answer every parser
keeps the furthest place at which anything was refused, and all that was acceptable there; an
abandoned alternative leaves its refusals behind. -/

namespace Heightfield

/-- The tokens not yet read, and where the last one read ended. -/
structure Cursor where
  rest : List Lexeme
  stop : Nat
deriving DecidableEq, Inhabited

/-- The furthest refusal. -/
structure Furthest where
  /-- How many tokens were left there. -/
  left : Nat
  expected : List Expected
deriving DecidableEq, Inhabited

/-- A refusal further on replaces the record, one at the same place adds to it. -/
def Furthest.refuse (f : Furthest) (left : Nat) (expected : List Expected) : Furthest :=
  if left < f.left then ⟨left, expected⟩
  else if left = f.left then ⟨left, f.expected ++ expected⟩
  else f

theorem Furthest.refuse_left (f : Furthest) (left : Nat) (expected : List Expected) :
    (f.refuse left expected).left = min left f.left := by
  unfold refuse
  split
  · rw [Nat.min_eq_left (by omega)]
  · split
    · rw [Nat.min_eq_left (by omega)]
    · rw [Nat.min_eq_right (by omega)]

/-- `none` is a refusal; the record is kept either way. -/
def Parser (α : Type) := Cursor → Furthest → Option (α × Cursor) × Furthest

namespace Parser

variable {α β : Type}

instance : Monad Parser where
  pure a := fun c f => (some (a, c), f)
  bind p next := fun c f =>
    match p c f with
    | (some (a, c'), f') => next a c' f'
    | (none, f') => (none, f')

/-- Refuses everything and leaves no trace. -/
def refuse : Parser α := fun _ f => (none, f)

def orElse (p q : Parser α) : Parser α := fun c f =>
  match p c f with
  | (some r, f') => (some r, f')
  | (none, f') => q c f'

instance : OrElse (Parser α) := ⟨fun p q => orElse p (q ())⟩

/-- Reads one token that `accept` takes. Where there is another, `expected` was acceptable; where
there is none, `expectedAtEnd`. -/
def token (accept : Token → Option α) (expected expectedAtEnd : List Expected) :
    Parser (α × Span) := fun c f =>
  match c.rest with
  | [] => (none, f.refuse 0 expectedAtEnd)
  | l :: rest =>
    match accept l.token with
    | some a => (some ((a, l.span), ⟨rest, l.span.stop⟩), f)
    | none => (none, f.refuse c.rest.length expected)

def fixed (t : Token) : Parser Span := do
  let (_, span) ← token (fun t' => if t' = t then some () else none) [.fixed t] [.fixed t]
  pure span

/-- Reads nothing, and succeeds where no token is left. -/
def endOfInput : Parser Unit := fun c f =>
  if c.rest.isEmpty then (some ((), c), f)
  else (none, f.refuse c.rest.length [.endOfInput])

/-- Where the last token read ended. -/
def lastStop : Parser Nat := fun c f => (some (c.stop, c), f)

/-- The longest run of `p`, and then whatever it refused. A `p` that reads nothing ends the run. -/
def many (p : Parser α) (c : Cursor) (f : Furthest) : Option (List α × Cursor) × Furthest :=
  match p c f with
  | (none, f') => (some ([], c), f')
  | (some (a, c'), f') =>
    if c'.rest.length < c.rest.length then
      match many p c' f' with
      | (some (as, c''), f'') => (some (a :: as, c''), f'')
      | (none, f'') => (none, f'')
    else (some ([a], c'), f')
termination_by c.rest.length

/-- Items with `separator` between them, none after the last; possibly no item. -/
def separated (p : Parser α) (separator : Parser β) : Parser (List α) :=
  (do
    let first ← p
    let others ← many (do let _ ← separator; p)
    pure (first :: others)) <|> pure []

def parenthesized (p : Parser α) : Parser α := do
  let _ ← fixed .openParen
  let a ← p
  let _ ← fixed .closeParen
  pure a

end Parser

end Heightfield
