import MicroC.Token

/-!
# Cutting a source into pieces

A source text is a sequence of pieces: blanks, comments, lexemes and faulty lexemes. Cutting takes
the longest piece that starts at the front, and what a fault covers is skipped, so one fault never
hides the next.

* `Piece.cut`: the piece at the front of a text and the rest.
* `Piece.cut_append`: the piece and the rest are the text.
* `pieces`, `flatten_pieces`: all pieces of a text; put together they are the text.
-/

namespace MicroC

/-- Why a lexeme is no token. -/
inductive LexFault
  /-- A character that starts no token. -/
  | invalidCharacter (c : Char)
  /-- A line end or the end of the text before the closing quote. -/
  | unterminatedString
  /-- A number with a second point. -/
  | multipleDecimalPoints
  /-- An exclamation mark that no equals sign follows. -/
  | bangWithoutEquals
deriving DecidableEq, Repr

def LexFault.message : LexFault → String
  | .invalidCharacter c => s!"Invalid character '{c}'"
  | .unterminatedString => "Unterminated string literal"
  | .multipleDecimalPoints => "Float literals must only contain one decimal point"
  | .bangWithoutEquals => "expected '=' after '!'"

/-- What a piece of source text is. -/
inductive PieceKind
  | blank
  | comment
  | token (k : TokenKind)
  | fault (f : LexFault)
deriving DecidableEq, Repr

/-- A piece of source text. -/
structure Piece where
  kind : PieceKind
  text : List Char
deriving DecidableEq, Repr

namespace Piece

/-! ## Character classes -/

/-- Space, newline, carriage return and tab. -/
def isBlank (c : Char) : Bool := c == ' ' || c == '\n' || c == '\r' || c == '\t'

/-- Names go on with ASCII letters, digits and underscores. -/
def continuesName (c : Char) : Bool := c.isAlphanum || c == '_'

/-- Whether a text starts with a digit. -/
def startsWithDigit : List Char → Bool
  | c :: _ => c.isDigit
  | [] => false

/-- Inside a string: anything but a quote and a line end. -/
def insideString (c : Char) : Bool := c != '"' && c != '\n'

/-- Inside a faulty number: points and digits. -/
def insideNumber (c : Char) : Bool := c == '.' || c.isDigit

/-! ## The piece at the front -/

/-- A slash, or a comment up to the line end, which is not part of it. -/
def slash (cs : List Char) : Piece × List Char :=
  match cs with
  | '/' :: _ => (⟨.comment, '/' :: cs.takeWhile (· != '\n')⟩, cs.dropWhile (· != '\n'))
  | _ => (⟨.token .slash, ['/']⟩, cs)

/-- A string up to its closing quote. It may not run past the line. -/
def string (cs : List Char) : Piece × List Char :=
  match cs.dropWhile insideString with
  | '"' :: rest => (⟨.token .stringLiteral, '"' :: cs.takeWhile insideString ++ ['"']⟩, rest)
  | rest => (⟨.fault .unterminatedString, '"' :: cs.takeWhile insideString⟩, rest)

/-- A number. One with a second point is taken up to the last of its digits and points. -/
def number (cs : List Char) : Piece × List Char :=
  match cs.dropWhile Char.isDigit with
  | '.' :: ds =>
    match ds.dropWhile Char.isDigit with
    | '.' :: es =>
      (⟨.fault .multipleDecimalPoints, cs.takeWhile Char.isDigit ++ '.' :: ds.takeWhile Char.isDigit
          ++ '.' :: es.takeWhile insideNumber⟩, es.dropWhile insideNumber)
    | rest =>
      (⟨.token .floatLiteral, cs.takeWhile Char.isDigit ++ '.' :: ds.takeWhile Char.isDigit⟩, rest)
  | rest => (⟨.token .intLiteral, cs.takeWhile Char.isDigit⟩, rest)

/-- The keyword that a word spells, or an identifier. -/
def wordKind (name : List Char) : TokenKind :=
  (TokenKind.keyword? (String.ofList name)).getD .identifier

/-- A name or a keyword. -/
def word (cs : List Char) : Piece × List Char :=
  (⟨.token (wordKind (cs.takeWhile continuesName)), cs.takeWhile continuesName⟩,
    cs.dropWhile continuesName)

/-- An operator or a mark that starts with `c`; the longer one wins. -/
def mark (c : Char) (cs : List Char) : Piece × List Char :=
  match c, cs with
  | '=', '=' :: rest => (⟨.token .equalsEquals, ['=', '=']⟩, rest)
  | '!', '=' :: rest => (⟨.token .bangEquals, ['!', '=']⟩, rest)
  | '<', '=' :: rest => (⟨.token .lessEquals, ['<', '=']⟩, rest)
  | '>', '=' :: rest => (⟨.token .greaterEquals, ['>', '=']⟩, rest)
  | _, _ => (⟨single c, [c]⟩, cs)
where
  /-- What a character is on its own. -/
  single : Char → PieceKind
    | '=' => .token .equals
    | '<' => .token .less
    | '>' => .token .greater
    | '+' => .token .plus
    | '-' => .token .minus
    | '*' => .token .star
    | '^' => .token .caret
    | '%' => .token .percent
    | '(' => .token .leftParen
    | ')' => .token .rightParen
    | '{' => .token .leftBrace
    | '}' => .token .rightBrace
    | '[' => .token .leftBracket
    | ']' => .token .rightBracket
    | ',' => .token .comma
    | ';' => .token .semicolon
    | '!' => .fault .bangWithoutEquals
    | c => .fault (.invalidCharacter c)

/-- The piece at the front of `c :: cs`, and the rest. -/
def cut (c : Char) (cs : List Char) : Piece × List Char :=
  if isBlank c then (⟨.blank, [c]⟩, cs)
  else if c = '/' then slash cs
  else if c = '"' then string cs
  else if c.isDigit || (c == '.' && startsWithDigit cs) then number (c :: cs)
  else if c.isAlpha then word (c :: cs)
  else mark c cs

/-! ## Nothing is lost -/

theorem slash_append (cs : List Char) : (slash cs).1.text ++ (slash cs).2 = '/' :: cs := by
  unfold slash
  split <;> simp [List.takeWhile_append_dropWhile]

theorem string_append (cs : List Char) : (string cs).1.text ++ (string cs).2 = '"' :: cs := by
  have h := List.takeWhile_append_dropWhile (p := insideString) (l := cs)
  unfold string
  split
  · next rest heq => rw [heq] at h; simp [h]
  · simp [h]

theorem number_append (cs : List Char) : (number cs).1.text ++ (number cs).2 = cs := by
  have h := List.takeWhile_append_dropWhile (p := Char.isDigit) (l := cs)
  unfold number
  split
  · next ds heq =>
    have h' := List.takeWhile_append_dropWhile (p := Char.isDigit) (l := ds)
    rw [heq] at h
    split
    · next es heq' => rw [heq'] at h'; simp [List.takeWhile_append_dropWhile, h', h]
    · simp [h', h]
  · exact h

theorem word_append (cs : List Char) : (word cs).1.text ++ (word cs).2 = cs :=
  List.takeWhile_append_dropWhile

theorem mark_append (c : Char) (cs : List Char) : (mark c cs).1.text ++ (mark c cs).2 = c :: cs := by
  unfold mark
  split <;> simp

/-- The piece and the rest are the text. -/
theorem cut_append (c : Char) (cs : List Char) : (cut c cs).1.text ++ (cut c cs).2 = c :: cs := by
  unfold cut
  split
  · rfl
  split
  · next h => rw [h, slash_append]
  split
  · next h => rw [h, string_append]
  split
  · exact number_append _
  split
  · exact word_append _
  · exact mark_append c cs

/-! ## Every piece covers something -/

theorem number_text_ne_nil {c : Char} (h : c.isDigit = true ∨ c = '.') (cs : List Char) :
    (number (c :: cs)).1.text ≠ [] := by
  unfold number
  split
  · split <;> simp
  · next hdot =>
    rcases h with h | rfl
    · simp [h]
    · exact absurd (by simp [Char.isDigit]) (hdot cs)

theorem word_text_ne_nil {c : Char} (h : c.isAlpha = true) (cs : List Char) :
    (word (c :: cs)).1.text ≠ [] := by
  simp [word, continuesName, Char.isAlphanum, h]

theorem cut_text_ne_nil (c : Char) (cs : List Char) : (cut c cs).1.text ≠ [] := by
  unfold cut
  split
  · simp
  split
  · unfold slash; split <;> simp
  split
  · unfold string; split <;> simp
  split
  · next h => exact number_text_ne_nil (by grind) cs
  split
  · next h => exact word_text_ne_nil h cs
  · unfold mark; split <;> simp

/-- Every piece makes the text shorter. -/
theorem length_cut_lt (c : Char) (cs : List Char) : (cut c cs).2.length < (c :: cs).length := by
  have h := congrArg List.length (cut_append c cs)
  have := List.length_pos_iff.2 (cut_text_ne_nil c cs)
  rw [List.length_append] at h
  omega

end Piece

/-! ## All pieces -/

/-- The pieces of a text. -/
def pieces : List Char → List Piece
  | [] => []
  | c :: cs => (Piece.cut c cs).1 :: pieces (Piece.cut c cs).2
termination_by cs => cs.length
decreasing_by exact Piece.length_cut_lt c cs

/-- Put together, the pieces of a text are the text. -/
theorem flatten_pieces (cs : List Char) : ((pieces cs).map Piece.text).flatten = cs := by
  fun_induction pieces cs with
  | case1 => rfl
  | case2 c cs ih => simp [ih, Piece.cut_append]

end MicroC
