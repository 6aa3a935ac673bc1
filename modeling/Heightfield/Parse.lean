import Heightfield.Parser.Grammar
import Heightfield.Token.Lexer

/-! From a source to its tokens and its tree. A character that begins no token is reported before
any fault of grammar, wherever it stands. -/

namespace Heightfield

def lex (source : String) : Except SyntaxError (List Lexeme) :=
  (Lexer.scan source.toList 0).mapError fun stray =>
    .of (.unexpectedCharacter stray.char.toString)
      ⟨stray.offset, stray.offset + stray.char.utf8Size⟩ [] source

/-- The fault at the furthest refusal. Past the last token it stands one byte behind the source. -/
def SyntaxError.ofFurthest (f : Furthest) (tokens : List Lexeme) (source : String) : SyntaxError :=
  let expected := f.expected.map Expected.describe
  match tokens[tokens.length - f.left]? with
  | some l => .of (.unexpectedToken (some l.token.describe)) l.span expected source
  | none =>
    let length := source.utf8ByteSize
    .of (.unexpectedToken none) ⟨length, length + 1⟩ expected source

/-- Parses a whole token list. Each level of nesting reads a token, so their number bounds it. -/
def parseTokens (table : OperatorTable) (core : Parser Expr → Parser Expr) (tokens : List Lexeme)
    (source : String) : Except SyntaxError Expr :=
  match Parser.program table core (tokens.length + 1) ⟨tokens, 0⟩ ⟨tokens.length, []⟩ with
  | (some (e, _), _) => .ok e
  | (none, f) => .error (.ofFurthest f tokens source)

/-- Parses with the given operators, and no compound forms. -/
def parseWith (table : OperatorTable) (source : String) : Except SyntaxError Expr := do
  parseTokens table Parser.term (← lex source) source

def parse (source : String) : Except SyntaxError Expr := do
  parseTokens .standard Parser.anyCore (← lex source) source

end Heightfield
