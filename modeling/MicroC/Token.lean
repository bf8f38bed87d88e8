import MicroC.Source.Span

/-!
# Tokens

The words of the language: their kinds, how a dump names them and how a message describes them.
-/

namespace MicroC

/-- The kinds of token. `eof` marks the end of a token list and is never read from a source. -/
inductive TokenKind
  | returnKw
  | ifKw
  | elseKw
  | whileKw
  | forKw
  | identifier
  | intLiteral
  | floatLiteral
  | stringLiteral
  | equals
  | equalsEquals
  | bangEquals
  | less
  | lessEquals
  | greater
  | greaterEquals
  | plus
  | minus
  | star
  | slash
  | caret
  | percent
  | leftParen
  | rightParen
  | leftBrace
  | rightBrace
  | leftBracket
  | rightBracket
  | comma
  | semicolon
  | eof
deriving DecidableEq, Repr, Inhabited

namespace TokenKind

/-- Every kind once. -/
def all : List TokenKind :=
  [.returnKw, .ifKw, .elseKw, .whileKw, .forKw, .identifier, .intLiteral, .floatLiteral,
    .stringLiteral, .equals, .equalsEquals, .bangEquals, .less, .lessEquals, .greater,
    .greaterEquals, .plus, .minus, .star, .slash, .caret, .percent, .leftParen, .rightParen,
    .leftBrace, .rightBrace, .leftBracket, .rightBracket, .comma, .semicolon, .eof]

/-- The name in a token dump. -/
def name : TokenKind → String
  | .returnKw => "RETURN"
  | .ifKw => "IF"
  | .elseKw => "ELSE"
  | .whileKw => "WHILE"
  | .forKw => "FOR"
  | .identifier => "IDENTIFIER"
  | .intLiteral => "INT_LITERAL"
  | .floatLiteral => "FLOAT_LITERAL"
  | .stringLiteral => "STRING_LITERAL"
  | .equals => "EQUALS"
  | .equalsEquals => "EQUALS_EQUALS"
  | .bangEquals => "BANG_EQUALS"
  | .less => "LESS_THAN"
  | .lessEquals => "LESS_THAN_EQUALS"
  | .greater => "GREATER_THAN"
  | .greaterEquals => "GREATER_THAN_EQUALS"
  | .plus => "PLUS"
  | .minus => "MINUS"
  | .star => "STAR"
  | .slash => "SLASH"
  | .caret => "CARET"
  | .percent => "PERCENT"
  | .leftParen => "LEFT_PAREN"
  | .rightParen => "RIGHT_PAREN"
  | .leftBrace => "LEFT_BRACE"
  | .rightBrace => "RIGHT_BRACE"
  | .leftBracket => "LEFT_BRACKET"
  | .rightBracket => "RIGHT_BRACKET"
  | .comma => "COMMA"
  | .semicolon => "SEMICOLON"
  | .eof => "EOF"

/-- The kind with a given dump name. -/
def ofName? (n : String) : Option TokenKind := all.find? (·.name == n)

/-- The wording in an error message. -/
def description : TokenKind → String
  | .returnKw => "'return'"
  | .ifKw => "'if'"
  | .elseKw => "'else'"
  | .whileKw => "'while'"
  | .forKw => "'for'"
  | .identifier => "identifier"
  | .intLiteral => "integer literal"
  | .floatLiteral => "float literal"
  | .stringLiteral => "string literal"
  | .equals => "'='"
  | .equalsEquals => "'=='"
  | .bangEquals => "'!='"
  | .less => "'<'"
  | .lessEquals => "'<='"
  | .greater => "'>'"
  | .greaterEquals => "'>='"
  | .plus => "'+'"
  | .minus => "'-'"
  | .star => "'*'"
  | .slash => "'/'"
  | .caret => "'^'"
  | .percent => "'%'"
  | .leftParen => "'('"
  | .rightParen => "')'"
  | .leftBrace => "'\x7b'"
  | .rightBrace => "'\x7d'"
  | .leftBracket => "'['"
  | .rightBracket => "']'"
  | .comma => "','"
  | .semicolon => "';'"
  | .eof => "end of file"

def isKeyword : TokenKind → Bool
  | .returnKw | .ifKw | .elseKw | .whileKw | .forKw => true
  | _ => false

def isLiteral : TokenKind → Bool
  | .intLiteral | .floatLiteral | .stringLiteral => true
  | _ => false

/-- The keyword that a word spells. -/
def keyword? : String → Option TokenKind
  | "if" => some .ifKw
  | "for" => some .forKw
  | "else" => some .elseKw
  | "while" => some .whileKw
  | "return" => some .returnKw
  | _ => none

end TokenKind

/-- A token: its kind, its exact text and where it stands. -/
structure Token where
  kind : TokenKind
  lexeme : String
  span : Span
deriving DecidableEq, Repr, Inhabited

namespace Token

/-- The line of a token dump. -/
def dump (t : Token) : String :=
  s!"{t.span.start.text} -> {t.span.stop.text} {t.kind.name} '{t.lexeme}'"

/-- The token as a message shows it: names and literals come with their text. -/
def describe (t : Token) : String :=
  if t.kind = .identifier ∨ t.kind.isLiteral then s!"{t.kind.description} '{t.lexeme}'"
  else t.kind.description

end Token

end MicroC
