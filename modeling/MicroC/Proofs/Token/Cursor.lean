import MicroC.Token.Lexer

/-!
# Scanning with a cursor

The scanner once more, over a cursor that counts. A text is read one character at a time; its bytes, its lines and the
columns of a line are counted apart from one another, and a lexeme is a slice of the text between two byte offsets.
Nothing says in advance that such a slice exists, nor that the text is used up: a scan has no outcome when it asks for
a slice that ends within a character, or when a round of it takes nothing.

* `TextCursor`: a text, what is left of it, and the counters.
* `TextLexer`: a cursor and the faults met so far.
* `Scanning`: what may be done with them, and the scanning of each sort of lexeme.
* `TextLexer.nextToken`, `TextLexer.scan`: one token, and all of them.
-/

namespace MicroC

open Piece

/-! ## Slices -/

/-- A text without its first bytes, unless they end within a character. -/
def dropBytes : Nat → List Char → Option (List Char)
  | 0, cs => some cs
  | _ + 1, [] => none
  | n + 1, c :: cs => if c.utf8Size ≤ n + 1 then dropBytes (n + 1 - c.utf8Size) cs else none

/-- The first bytes of a text, unless they end within a character. -/
def takeBytes : Nat → List Char → Option (List Char)
  | 0, _ => some []
  | _ + 1, [] => none
  | n + 1, c :: cs => if c.utf8Size ≤ n + 1 then (takeBytes (n + 1 - c.utf8Size) cs).map (c :: ·) else none

/-- The text between two byte offsets. -/
def sliceBytes (start stop : Nat) (cs : List Char) : Option (List Char) :=
  if start ≤ stop then (dropBytes start cs).bind (takeBytes (stop - start)) else none

/-! ## Cursors -/

/-- A place in a text. -/
structure TextCursor where
  source : List Char
  /-- What is left of the text. -/
  rest : List Char
  /-- The bytes that were read. -/
  offset : Nat := 0
  line : Nat := 1
  column : Nat := 1

namespace TextCursor

def ofSource (source : String) : TextCursor := { source := source.toList, rest := source.toList }

def isEof (c : TextCursor) : Bool := c.rest.isEmpty

/-- The character ahead. -/
def peek (c : TextCursor) : Option Char := c.rest.head?

/-- The character `n` places behind the one ahead. -/
def peekNth (c : TextCursor) (n : Nat) : Option Char := c.rest[n]?

def check (c : TextCursor) (f : Char → Bool) : Bool := c.peek.any f

/-- Reads a character. A newline opens the next line. -/
def advance (c : TextCursor) : Option Char × TextCursor :=
  match c.rest with
  | [] => (none, c)
  | ch :: cs =>
    let read := { c with rest := cs, offset := c.offset + ch.utf8Size }
    if ch = '\n' then (some ch, { read with line := c.line + 1, column := 1 })
    else (some ch, { read with column := c.column + 1 })

/-- Reads a given character, if it is ahead. -/
def eat (c : TextCursor) (ch : Char) : Bool × TextCursor :=
  if c.peek = some ch then (true, c.advance.2) else (false, c)

theorem length_advance_lt {c : TextCursor} (h : c.peek ≠ none) : c.advance.2.rest.length < c.rest.length := by
  unfold peek at h
  unfold advance
  split
  · next hrest => simp [hrest] at h
  · next hrest => split <;> simp [hrest]

/-- Reads characters as long as they belong to a class. -/
def skipWhile (f : Char → Bool) (c : TextCursor) : TextCursor :=
  if c.check f then skipWhile f c.advance.2 else c
termination_by c.rest.length
decreasing_by
  next h =>
  refine length_advance_lt fun hnone => ?_
  rw [check, hnone] at h
  cases h

/-- The text from a byte offset up to here. -/
def sliceFrom (c : TextCursor) (start : Nat) : Option (List Char) := sliceBytes start c.offset c.source

end TextCursor

/-! ## Lexers -/

/-- A scan in progress: where it is and the faults met so far. -/
structure TextLexer where
  cursor : TextCursor
  errors : List LexError := []

/-- Where a lexeme starts. -/
structure LexemeStart where
  line : Nat
  column : Nat
  offset : Nat

/-- What may be done in a scan: it comes to a value and goes on elsewhere, or has no outcome at all. -/
abbrev Scanning (α : Type) : Type := StateT TextLexer Option α

namespace Scanning

/-- Asks the cursor. -/
def look {α : Type} (f : TextCursor → α) : Scanning α := fun l => some (f l.cursor, l)

/-- Moves the cursor. -/
def move {α : Type} (f : TextCursor → α × TextCursor) : Scanning α := fun l =>
  some ((f l.cursor).1, { l with cursor := (f l.cursor).2 })

def advance : Scanning (Option Char) := move TextCursor.advance

def eat (ch : Char) : Scanning Bool := move (·.eat ch)

def sliceFrom (start : Nat) : Scanning (List Char) := fun l => (l.cursor.sliceFrom start).map (·, l)

/-- Reads characters as long as they belong to a class, and says which ones they were. -/
def eatWhile (f : Char → Bool) : Scanning (List Char) := do
  let start ← look (·.offset)
  move fun c => ((), c.skipWhile f)
  sliceFrom start

/-- A token from its start up to here. -/
def token (k : TokenKind) (start : LexemeStart) : Scanning (Option Token) := do
  let stop ← look (·.offset)
  let lexeme ← sliceFrom start.offset
  return some ⟨k, String.ofList lexeme, ⟨start.line, start.column, stop - start.offset⟩⟩

/-- A fault from its start up to here, which is put down. -/
def fault (f : LexFault) (start : LexemeStart) : Scanning (Option Token) := fun l =>
  let span : Span := ⟨start.line, start.column, l.cursor.offset - start.offset⟩
  some (none, { l with errors := l.errors ++ [⟨f, span⟩] })

/-! ## Lexemes -/

/-- A slash, or a comment up to the line end. -/
def slash (start : LexemeStart) : Scanning (Option Token) := do
  let _ ← advance
  if ← eat '/' then
    let _ ← eatWhile (· != '\n')
    return none
  else token .slash start

/-- A string up to its closing quote, or a fault at the line end or at the end of the text. -/
def string (start : LexemeStart) : Scanning (Option Token) := do
  let _ ← advance
  move fun c => ((), c.skipWhile insideString)
  if (← look (·.peek)) = some '"' then
    let _ ← advance
    token .stringLiteral start
  else fault .unterminatedString start

/-- A number. Behind a second point it goes on with points and digits, and is a fault. -/
def number (start : LexemeStart) : Scanning (Option Token) := do
  let _ ← eatWhile Char.isDigit
  if ← eat '.' then
    let _ ← eatWhile Char.isDigit
    if (← look (·.peek)) = some '.' then
      let _ ← eatWhile insideNumber
      fault .multipleDecimalPoints start
    else token .floatLiteral start
  else token .intLiteral start

/-- A name, or the keyword that it spells. -/
def word (start : LexemeStart) : Scanning (Option Token) := do
  let lexeme ← eatWhile continuesName
  token ((TokenKind.keyword? (String.ofList lexeme)).getD .identifier) start

/-- An operator of two characters, the second of which is ahead. -/
def double (k : TokenKind) (start : LexemeStart) : Scanning (Option Token) := do
  let _ ← advance
  token k start

/-- What a character is on its own. -/
def single (c : Char) (start : LexemeStart) : Scanning (Option Token) :=
  match Piece.mark.single c with
  | .token k => token k start
  | .fault f => fault f start
  | .blank | .comment => return none

/-- An operator or a mark, by the character behind its first one. -/
def operator (c : Char) (next : Option Char) (start : LexemeStart) : Scanning (Option Token) :=
  match c, next with
  | '=', some '=' => double .equalsEquals start
  | '!', some '=' => double .bangEquals start
  | '<', some '=' => double .lessEquals start
  | '>', some '=' => double .greaterEquals start
  | _, _ => single c start

def mark (start : LexemeStart) : Scanning (Option Token) := do
  match ← advance with
  | none => return none
  | some c => operator c (← look (·.peek)) start

/-- The lexeme ahead, by its first character. A comment and a fault are no token. -/
def lexeme : Scanning (Option Token) := do
  let start ← look fun c => ⟨c.line, c.column, c.offset⟩
  match ← look (·.peek) with
  | none => return none
  | some c =>
    if c = '/' then slash start
    else if c = '"' then string start
    else if c.isDigit then number start
    else if c = '.' ∧ (← look (·.peekNth 1)).any Char.isDigit then number start
    else if c.isAlpha then word start
    else mark start

end Scanning

/-! ## Scans -/

namespace TextLexer

def ofSource (source : String) : TextLexer := ⟨.ofSource source, []⟩

def skipBlanks (l : TextLexer) : TextLexer := { l with cursor := l.cursor.skipWhile isBlank }

/-- The next token, if there is one. A round that takes nothing would be followed by the same round again, and has no
outcome. -/
def nextToken (l : TextLexer) : Option (Option Token × TextLexer) :=
  if l.skipBlanks.cursor.isEof then some (none, l.skipBlanks)
  else
    match Scanning.lexeme l.skipBlanks with
    | none => none
    | some (some t, l') => some (some t, l')
    | some (none, l') => if l'.cursor.rest.length < l.cursor.rest.length then nextToken l' else none
termination_by l.cursor.rest.length

/-- All tokens that are left. -/
def tokens (l : TextLexer) : Option (List Token × TextLexer) :=
  match l.nextToken with
  | none => none
  | some (none, l') => some ([], l')
  | some (some t, l') =>
    if l'.cursor.rest.length < l.cursor.rest.length then (tokens l').map fun r => (t :: r.1, r.2) else none
termination_by l.cursor.rest.length

/-- Scans a source. -/
def scan (source : String) : Option Scan := (ofSource source).tokens.map fun r => ⟨r.1, r.2.errors⟩

end TextLexer

end MicroC
