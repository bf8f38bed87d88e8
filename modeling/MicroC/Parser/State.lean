import MicroC.Ast.Basic

/-!
# The state of a parser

A parser reads a list of tokens from the front. It never puts a token back and never moves past an
end-of-file token, so the number of tokens ahead bounds everything it does. Numbers given to nodes
stay given, also when parsing fails later.

* `Parser.peek`, `Parser.advance`, `Parser.expect`: looking at tokens and reading them.
* `Reading s α`: the outcome of a step from `s`, which moves forward or stays.
* `Progress s α`: the outcome of a step from `s` that reads a token whenever it succeeds.
-/

namespace MicroC

/-! ## Errors -/

/-- Why a token does not fit. -/
inductive ParseFault
  /-- A token of this kind was expected. -/
  | expected (kind : TokenKind)
  /-- An expression was expected at the end of the tokens. -/
  | expectedExpression
  /-- The token starts no operand. -/
  | noOperand
  /-- A second comparison or equality in a row. -/
  | nonAssociative
  | integerOutOfRange
  | invalidFloat
deriving DecidableEq, Repr

/-- The first token that does not fit, and why. -/
structure ParseError where
  fault : ParseFault
  token : Token
deriving DecidableEq, Repr

namespace ParseError

/-- The complaint about a token that is not what was expected. -/
def expectedMessage (what : String) (t : Token) : String :=
  if t.kind = .eof then s!"Expected {what}, but found end of file"
  else s!"Expected {what}, but found {t.describe}"

def message (e : ParseError) : String :=
  match e.fault with
  | .expected k => expectedMessage k.description e.token
  | .expectedExpression => expectedMessage "expression" e.token
  | .noOperand => s!"Unexpected token {e.token.describe} for atom"
  | .nonAssociative => "non-associative operators may not be used multiple times in a row"
  | .integerOutOfRange => s!"Integer literal '{e.token.lexeme}' out of range"
  | .invalidFloat => s!"Invalid float literal '{e.token.lexeme}'"

/-- Whether something was expected where the tokens end. -/
def atEnd (e : ParseError) : Bool :=
  match e.fault with
  | .expected _ | .expectedExpression => e.token.kind == .eof
  | _ => false

/-- The category of the error. -/
def category (e : ParseError) : String :=
  match e.fault with
  | .expected _ | .expectedExpression => if e.atEnd then "unexpected end of file" else "expected token"
  | .noOperand => "unexpected token"
  | .nonAssociative => "non-associative operator"
  | .integerOutOfRange | .invalidFloat => "invalid literal"

/-- The text of the offending token; there is none at the end. -/
def found (e : ParseError) : String := if e.atEnd then "" else e.token.lexeme

def span (e : ParseError) : Span := e.token.span

end ParseError

/-! ## States -/

/-- The tokens ahead, the place of their end, and the numbers given so far. -/
structure Parser where
  ahead : List Token
  stop : Span
  numbering : Numbering := {}

namespace Parser

/-- A parser in front of a list of tokens. Their end is placed where the last of them stops. -/
def ofTokens (tokens : List Token) : Parser where
  ahead := tokens
  stop := match tokens.getLast? with
    | some t => .point t.span.line t.span.stop.col
    | none => .point 1 1

/-- The end of the tokens. -/
def endToken (s : Parser) : Token := ⟨.eof, "", s.stop⟩

/-- The token `n` places ahead. Beyond the tokens there is only their end. -/
def peekAt (s : Parser) (n : Nat) : Token := s.ahead.getD n s.endToken

/-- The token ahead. -/
def peek (s : Parser) : Token := s.peekAt 0

/-- Whether the token ahead has a given kind. -/
def check (s : Parser) (k : TokenKind) : Bool := s.peek.kind == k

/-- Whether the tokens end here. -/
def isAtEnd (s : Parser) : Bool := s.check .eof

/-- Reads the token ahead. An end of file stays where it is. -/
def advance (s : Parser) : Parser :=
  match s.ahead with
  | [] => s
  | t :: ts => if t.kind = .eof then s else { s with ahead := ts }

/-- Reads the token ahead if it has a given kind. -/
def eat (s : Parser) (k : TokenKind) : Option Token × Parser :=
  if s.check k then (some s.peek, s.advance) else (none, s)

/-- Reads a token of a given kind, or fails where it stands. -/
def expect (s : Parser) (k : TokenKind) : Except ParseError Token × Parser :=
  if s.check k then (.ok s.peek, s.advance) else (.error ⟨.expected k, s.peek⟩, s)

/-- Gives the next number to a node. -/
def fresh (s : Parser) (span : Span) : Site × Parser :=
  (⟨s.numbering.fresh.1, span⟩, { s with numbering := s.numbering.fresh.2 })

/-! ## How far a parser is -/

/-- The number of tokens ahead. -/
def size (s : Parser) : Nat := s.ahead.length

@[simp] theorem size_fresh (s : Parser) (span : Span) : (s.fresh span).2.size = s.size := rfl

theorem size_advance_le (s : Parser) : s.advance.size ≤ s.size := by
  unfold advance size
  split
  · exact Nat.le_refl _
  · next h => split <;> simp [h]

/-- Reading a token other than the end of file leaves fewer ahead. -/
theorem size_advance_lt {s : Parser} (h : s.peek.kind ≠ .eof) : s.advance.size < s.size := by
  unfold peek peekAt at h
  unfold advance size
  split
  · next heq => simp [heq, endToken] at h
  · next t ts heq => simp_all

theorem size_advance_lt_of_check {s : Parser} {k : TokenKind} (h : s.check k = true)
    (hk : k ≠ .eof) : s.advance.size < s.size :=
  size_advance_lt (by rwa [eq_of_beq h])

end Parser

/-! ## Outcomes -/

/-- The outcome of a step from `s`: a value or an error, and the state reached, which has no more
tokens ahead than `s`. -/
def Reading (s : Parser) (α : Type) : Type :=
  { o : Except ParseError α × Parser // o.2.size ≤ s.size }

/-- The outcome of a step from `s` that reads a token whenever it succeeds. -/
def Progress (s : Parser) (α : Type) : Type :=
  { o : Except ParseError α × Parser //
    o.2.size ≤ s.size ∧ ∀ a, o.1 = .ok a → o.2.size < s.size }

namespace Reading

variable {s t : Parser} {α β : Type}

/-- Succeeds on the spot. -/
def pure (a : α) : Reading s α := ⟨(.ok a, s), Nat.le_refl _⟩

/-- Succeeds with a node, which gets the next number. -/
def node (span : Span) (f : Site → α) : Reading s α :=
  ⟨(.ok (f (s.fresh span).1), (s.fresh span).2), Nat.le_refl _⟩

/-- Fails on the spot. -/
def stop (e : ParseError) : Reading s α := ⟨(.error e, s), Nat.le_refl _⟩

/-- Succeeds in state `t`. -/
def ok (a : α) (t : Parser) (h : t.size ≤ s.size) : Reading s α :=
  ⟨(.ok a, t), h⟩

/-- Fails in state `t`. -/
def fail (e : ParseError) (t : Parser) (h : t.size ≤ s.size) : Reading s α :=
  ⟨(.error e, t), h⟩

/-- A step from further on, seen from `s`. -/
def since (r : Reading t α) (h : t.size ≤ s.size) : Reading s α :=
  ⟨r.1, Nat.le_trans r.2 h⟩

/-- Goes on with the value from the state reached, unless the step failed. -/
def andThen (r : Reading s α) (f : α → (t : Parser) → t.size ≤ s.size → Reading t β) :
    Reading s β :=
  match r with
  | ⟨(.error e, t), h⟩ => ⟨(.error e, t), h⟩
  | ⟨(.ok a, t), h⟩ => (f a t h).since h

/-- Reads a token of a given kind. -/
def expect (s : Parser) (k : TokenKind) : Reading s Token :=
  ⟨s.expect k, by
    unfold Parser.expect
    split
    · exact s.size_advance_le
    · exact Nat.le_refl _⟩

end Reading

namespace Progress

variable {s t : Parser} {α β : Type}

/-- Forgets that something was read. -/
def reading (p : Progress s α) : Reading s α := ⟨p.1, p.2.1⟩

/-- Fails on the spot. -/
def stop (e : ParseError) : Progress s α :=
  ⟨(.error e, s), Nat.le_refl _, fun _ ha => nomatch ha⟩

/-- Fails in state `t`. -/
def fail (e : ParseError) (t : Parser) (h : t.size ≤ s.size) : Progress s α :=
  ⟨(.error e, t), h, fun _ ha => nomatch ha⟩

/-- Any step from behind a token that was read. -/
def since (r : Reading t α) (h : t.size < s.size) : Progress s α :=
  ⟨r.1, Nat.le_of_lt (Nat.lt_of_le_of_lt r.2 h), fun _ _ => Nat.lt_of_le_of_lt r.2 h⟩

/-- Goes on with the value from the state reached, unless the step failed. -/
def andThen (p : Progress s α) (f : α → (t : Parser) → t.size < s.size → Reading t β) :
    Progress s β :=
  match p with
  | ⟨(.error e, t), h⟩ => ⟨(.error e, t), h.1, fun _ ha => nomatch ha⟩
  | ⟨(.ok a, t), h⟩ => since (f a t (h.2 a rfl)) (h.2 a rfl)

/-- Changes the value. -/
def map (f : α → β) (p : Progress s α) : Progress s β :=
  p.andThen fun a _ _ => .pure (f a)

/-- Reads a token of a given kind, which is not the end of file. -/
def expect (s : Parser) (k : TokenKind) (hk : k ≠ .eof := by decide) : Progress s Token :=
  ⟨s.expect k, by
    unfold Parser.expect
    split
    · exact s.size_advance_le
    · exact Nat.le_refl _, by
    unfold Parser.expect
    intro a
    split
    · next h => exact fun _ => Parser.size_advance_lt_of_check h hk
    · exact fun ha => nomatch ha⟩

/-- Reads a name. -/
def ident (s : Parser) : Progress s Ident :=
  (expect s .identifier).map fun t => ⟨t.lexeme, t.span⟩

end Progress

end MicroC
