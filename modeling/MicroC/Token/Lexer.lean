import MicroC.Source.Diagnostic
import MicroC.Token.Piece

/-!
# Scanning

A scan reads a whole source. It never stops at a fault: every token and every fault of the text is
reported, in source order, at the place where its text starts.

* `placed`: the pieces of a text with their positions.
* `scan`: all tokens and all faults.
* `Lexer`: the same pieces, taken one token at a time.
-/

namespace MicroC

/-- A faulty lexeme and its place. -/
structure LexError where
  fault : LexFault
  span : Span
deriving DecidableEq, Repr

namespace LexError

def message (e : LexError) : String := e.fault.message

def diagnostic (e : LexError) : Diagnostic := ⟨some e.span, e.message⟩

/-- All faults of a scan, one to a line. -/
def batchText (es : List LexError) : String :=
  "\n".intercalate (es.map fun e => e.diagnostic.text)

end LexError

/-- A piece of source text and the position of its first character. -/
structure Placed where
  piece : Piece
  position : Position
deriving DecidableEq, Repr

namespace Placed

/-- The length of a text in UTF-8. -/
def byteLength : List Char → Nat
  | [] => 0
  | c :: cs => c.utf8Size + byteLength cs

/-- The span of a piece: columns count characters, the length counts bytes. -/
def span (p : Placed) : Span := ⟨p.position.line, p.position.col, byteLength p.piece.text⟩

def token? (p : Placed) : Option Token :=
  match p.piece.kind with
  | .token k => some ⟨k, String.ofList p.piece.text, p.span⟩
  | _ => none

def error? (p : Placed) : Option LexError :=
  match p.piece.kind with
  | .fault f => some ⟨f, p.span⟩
  | _ => none

end Placed

/-- Places pieces one behind the other, the first at `p`. -/
def place (p : Position) : List Piece → List Placed
  | [] => []
  | x :: xs => ⟨x, p⟩ :: place (p.after x.text) xs

/-- The pieces of a source in their places. -/
def placed (source : String) : List Placed := place .start (pieces source.toList)

/-- The outcome of a scan. -/
structure Scan where
  tokens : List Token
  errors : List LexError
deriving DecidableEq, Repr

/-- Scans a source. -/
def scan (source : String) : Scan :=
  ⟨(placed source).filterMap Placed.token?, (placed source).filterMap Placed.error?⟩

/-- The tokens, or all faults if there are any. -/
def Scan.result (s : Scan) : Except (List LexError) (List Token) :=
  if s.errors.isEmpty then .ok s.tokens else .error s.errors

/-- One line for each token, also around faults. -/
def tokenDump (source : String) : String :=
  String.join ((scan source).tokens.map fun t => t.dump ++ "\n")

/-- A scan in progress: the pieces ahead and the faults met so far. -/
structure Lexer where
  ahead : List Placed
  errors : List LexError

namespace Lexer

def ofSource (source : String) : Lexer := ⟨placed source, []⟩

/-- Moves past the next token. Faults on the way are added to those met. -/
def advance (errors : List LexError) : List Placed → Option Token × Lexer
  | [] => (none, ⟨[], errors⟩)
  | p :: ps =>
    match p.token? with
    | some t => (some t, ⟨ps, errors⟩)
    | none => advance (errors ++ p.error?.toList) ps

/-- The next token, if there is one. -/
def next (l : Lexer) : Option Token × Lexer := advance l.errors l.ahead

/-- All tokens that are left. -/
def rest (l : Lexer) : List Token × Lexer :=
  (l.ahead.filterMap Placed.token?, ⟨[], l.errors ++ l.ahead.filterMap Placed.error?⟩)

/-- The faults met so far, which are then forgotten. -/
def takeErrors (l : Lexer) : List LexError × Lexer := (l.errors, ⟨l.ahead, []⟩)

end Lexer

end MicroC
