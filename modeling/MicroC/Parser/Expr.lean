import MicroC.Parser.State

/-!
# Parsing expressions

Expressions are layered by how tightly their operators bind:

```text
assignment := equality ('=' assignment)?
equality   := comparison (('==' | '!=') comparison)?
comparison := sum (('<' | '<=' | '>' | '>=') sum)?
sum        := product (('+' | '-') product)*
product    := sign (('*' | '/' | '%') sign)*
sign       := ('+' | '-') sign | power
power      := atom ('^' power)?
atom       := literal | '(' assignment ')' | name | name '[' assignment ']' | name '(' arguments ')'
```

* `Level`: the layers, with the operators of each.
* `Parser.expression`: an expression of a layer.
-/

namespace MicroC

/-- A layer of expressions, from the loosest to the tightest. -/
inductive Level
  | assignment
  | equality
  | comparison
  | sum
  | product
  | sign
  | power
  | atom
deriving DecidableEq, Repr

/-- The layer of an operator. -/
def BinaryOp.level : BinaryOp → Level
  | .assign => .assignment
  | .equal | .notEqual => .equality
  | .less | .lessEqual | .greater | .greaterEqual => .comparison
  | .add | .sub => .sum
  | .mul | .div | .mod => .product
  | .pow => .power

/-- How the operators of a layer group: `a - b - c` to the left, `a = b = c` to the right, and
`a < b < c` not at all. -/
inductive Grouping
  | left
  | right
  | once
deriving DecidableEq, Repr

namespace Level

def grouping : Level → Grouping
  | .equality | .comparison => .once
  | .assignment | .power => .right
  | .sum | .product | .sign | .atom => .left

/-- The next tighter layer. -/
def tighter : Level → Level
  | .assignment => .equality
  | .equality => .comparison
  | .comparison => .sum
  | .sum => .product
  | .product => .sign
  | .sign => .power
  | .power | .atom => .atom

/-- How many layers are tighter. -/
def rank : Level → Nat
  | .assignment => 7
  | .equality => 6
  | .comparison => 5
  | .sum => 4
  | .product => 3
  | .sign => 2
  | .power => 1
  | .atom => 0

/-- The operator of this layer that a token spells. -/
def operator? (l : Level) (k : TokenKind) : Option BinaryOp :=
  (BinaryOp.ofToken? k).filter (·.level == l)

theorem ne_eof_of_operator? {l : Level} {k : TokenKind} {op : BinaryOp}
    (h : l.operator? k = some op) : k ≠ .eof := by
  rintro rfl
  simp [operator?, BinaryOp.ofToken?] at h

end Level

theorem UnaryOp.ne_eof_of_ofToken? {k : TokenKind} {op : UnaryOp} (h : UnaryOp.ofToken? k = some op) :
    k ≠ .eof := by
  rintro rfl
  simp [UnaryOp.ofToken?] at h

namespace Parser

/-! ## Nodes -/

/-- A binary expression over both operands, numbered after them. -/
def binary (s : Parser) (lhs : Expr) (op : BinaryOp) (opSpan : Span) (rhs : Expr) : Expr × Parser :=
  let (site, s) := s.fresh (lhs.span.merge rhs.span)
  (.binary site op opSpan lhs rhs, s)

@[simp] theorem size_binary (s : Parser) (lhs : Expr) (op : BinaryOp) (opSpan : Span) (rhs : Expr) :
    (s.binary lhs op opSpan rhs).2.size = s.size := rfl

/-- The text of a string literal without its quotes. A lexeme that lacks one of them is kept. -/
def unquote (lexeme : String) : String :=
  match lexeme.toList with
  | '"' :: cs =>
    match cs.reverse with
    | '"' :: ds => String.ofList ds.reverse
    | _ => lexeme
  | _ => lexeme

/-- A literal made of the token ahead, which is read in any case. -/
def literal {s : Parser} (hs : s.peek.kind ≠ .eof) (node : Except ParseFault (Site → Expr)) :
    Progress s Expr :=
  match node with
  | .error fault => .fail ⟨fault, s.peek⟩ s.advance s.size_advance_le
  | .ok node =>
    .since (.node s.peek.span node : Reading s.advance Expr) (size_advance_lt hs)

/-! ## The grammar -/

mutual

/-- An expression of layer `l` or a tighter one. -/
def expression (l : Level) (s : Parser) : Progress s Expr :=
  match l with
  | .assignment => (expression .equality s).andThen fun lhs t _ => operators .assignment lhs t
  | .equality => (expression .comparison s).andThen fun lhs t _ => operators .equality lhs t
  | .comparison => (expression .sum s).andThen fun lhs t _ => operators .comparison lhs t
  | .sum => (expression .product s).andThen fun lhs t _ => operators .sum lhs t
  | .product => (expression .sign s).andThen fun lhs t _ => operators .product lhs t
  | .sign =>
    match h : UnaryOp.ofToken? s.peek.kind with
    | none => expression .power s
    | some op =>
      have hs : s.advance.size < s.size := size_advance_lt (UnaryOp.ne_eof_of_ofToken? h)
      .since ((expression .sign s.advance).reading.andThen fun x _ _ =>
        .node (s.peek.span.merge x.span) (.unary · op s.peek.span x)) hs
  | .power => (expression .atom s).andThen fun lhs t _ => operators .power lhs t
  | .atom =>
    match h : s.peek.kind with
    | .intLiteral => literal (by simp [h]) <|
      match word? s.peek.lexeme with
      | some v => .ok (.int · v)
      | none => .error .integerOutOfRange
    | .floatLiteral => literal (by simp [h]) <|
      match Binary64.ofDecimal? s.peek.lexeme with
      | some v => .ok (.float · v)
      | none => .error .invalidFloat
    | .stringLiteral => literal (by simp [h]) (.ok (.string · (unquote s.peek.lexeme)))
    | .leftParen =>
      have hs : s.advance.size < s.size := size_advance_lt (by simp [h])
      .since ((expression .assignment s.advance).reading.andThen fun e t _ =>
        (Reading.expect t .rightParen).andThen fun _ _ _ => .pure e) hs
    | .identifier =>
      (Progress.ident s).andThen fun name t ht =>
        have ht' := t.size_advance_le
        if t.check .leftParen then
          Reading.since ((arguments t.advance).andThen fun args u _ =>
            (Reading.expect u .rightParen).andThen fun close _ _ =>
              .node (name.span.merge close.span) (.call · name args)) ht'
        else if t.check .leftBracket then
          Reading.since ((expression .assignment t.advance).reading.andThen fun i u _ =>
            (Reading.expect u .rightBracket).andThen fun close _ _ =>
              .node (name.span.merge close.span) (.index · name i)) ht'
        else .node name.span (.var · name)
    | .eof => .stop ⟨.expectedExpression, s.peek⟩
    | _ => .stop ⟨.noOperand, s.peek⟩
termination_by (s.size, l.rank + 1)
decreasing_by
  all_goals first
    | (apply Prod.Lex.left; omega)
    | (apply Prod.Lex.right; decide)

/-- Goes on behind an operand of layer `l` with the operators of that layer. -/
def operators (l : Level) (lhs : Expr) (s : Parser) : Reading s Expr :=
  match h : l.operator? s.peek.kind with
  | none => .pure lhs
  | some op =>
    have hs : s.advance.size < s.size := size_advance_lt (Level.ne_eof_of_operator? h)
    match l.grouping with
    | .right =>
      Reading.since ((expression l s.advance).reading.andThen fun rhs _ _ =>
        .node (lhs.span.merge rhs.span) (.binary · op s.peek.span lhs rhs))
        (Nat.le_of_lt hs)
    | .once =>
      Reading.since ((expression l.tighter s.advance).reading.andThen fun rhs t _ =>
        if (l.operator? t.peek.kind).isSome then
          .fail ⟨.nonAssociative, t.peek⟩ t.advance t.size_advance_le
        else .node (lhs.span.merge rhs.span) (.binary · op s.peek.span lhs rhs))
        (Nat.le_of_lt hs)
    | .left =>
      Reading.since ((expression l.tighter s.advance).reading.andThen fun rhs t _ =>
        operators l (t.binary lhs op s.peek.span rhs).1 (t.binary lhs op s.peek.span rhs).2)
        (Nat.le_of_lt hs)
termination_by (s.size, 0)
decreasing_by
  all_goals
    apply Prod.Lex.left
    try rw [size_binary]
    omega

/-- The arguments of a call, up to the closing parenthesis, which stays ahead. -/
def arguments (s : Parser) : Reading s (List Expr) :=
  if s.check .rightParen then .pure [] else (argumentList s).reading
termination_by (s.size, 10)
decreasing_by apply Prod.Lex.right; decide

/-- One or more expressions with commas between them. -/
def argumentList (s : Parser) : Progress s (List Expr) :=
  (expression .assignment s).andThen fun e t _ =>
    if t.check .comma then
      have ht' := t.size_advance_le
      Reading.since ((argumentList t.advance).reading.andThen fun es _ _ => .pure (e :: es)) ht'
    else .pure [e]
termination_by (s.size, 9)
decreasing_by
  all_goals first
    | (apply Prod.Lex.left; omega)
    | (apply Prod.Lex.right; decide)

end

end Parser

end MicroC
