import Heightfield.Operator
import Heightfield.Span

/-! Tokens, the spelling each has in a source, and the words that name it in messages. -/

namespace Heightfield

inductive Keyword
  | letKw | inKw | ifKw | thenKw | elseKw
deriving DecidableEq, Inhabited

def Keyword.spelling : Keyword → String
  | .letKw => "let" | .inKw => "in" | .ifKw => "if" | .thenKw => "then" | .elseKw => "else"

def Keyword.all : List Keyword := [.letKw, .inKw, .ifKw, .thenKw, .elseKw]

inductive Token
  | keyword (word : Keyword)
  | operator (op : Op)
  | equals
  | openParen
  | closeParen
  | comma
  | ident (name : String)
  | number (digits : String)
deriving DecidableEq, Inhabited

namespace Token

def spelling : Token → String
  | .keyword word => word.spelling
  | .operator op => op.symbol
  | .equals => "="
  | .openParen => "("
  | .closeParen => ")"
  | .comma => ","
  | .ident name => name
  | .number digits => digits

/-- How messages name the token. -/
def describe : Token → String
  | .ident name => "identifier '" ++ name ++ "'"
  | .number digits => "number " ++ digits
  | t => "'" ++ t.spelling ++ "'"

end Token

/-- A token where it stands. -/
structure Lexeme where
  token : Token
  span : Span
deriving DecidableEq, Inhabited

end Heightfield
