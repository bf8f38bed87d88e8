import MicroC.Parser.Program

/-!
# Parsing at a place of a buffer

The parser once more, over a buffer that is never shortened and with the index of the token ahead. Nothing says in
advance that it ends: an attempt is given a number of nested calls, where one more round of a loop counts as a nested
call, and has no outcome when these do not suffice or when it asks for a token that the buffer does not have.

* `Cursor`: a buffer, the index of the token ahead, and the indices that were left behind on the way there.
* `Attempt`: what may be done at a cursor, with its `Monad` instance.
* `Attempt.expression`, `Attempt.statement`, `Attempt.program`: the grammar, for a number of nested calls.
-/

namespace MicroC

/-- A place in a buffer of tokens. -/
structure Cursor where
  /-- The tokens, the last of which is an end of file. -/
  buffer : List Token
  /-- The index of the token ahead. -/
  position : Nat := 0
  /-- The indices of the tokens that were read, in the order in which they were read. -/
  passed : List Nat := []
  numbering : Numbering := {}

/-- What may be done at a cursor: it comes to a value or an error and to another cursor, or to nothing at all. -/
def Attempt (α : Type) : Type := Cursor → Option (Except ParseError α × Cursor)

namespace Attempt

variable {α β : Type}

protected def pure (a : α) : Attempt α := fun c => some (.ok a, c)

/-- Goes on with the value at the cursor reached, unless there is none. -/
protected def bind (x : Attempt α) (f : α → Attempt β) : Attempt β := fun c =>
  match x c with
  | none => none
  | some (.error e, c') => some (.error e, c')
  | some (.ok a, c') => f a c'

instance : Monad Attempt where
  pure := Attempt.pure
  bind := Attempt.bind

def fail (e : ParseError) : Attempt α := fun c => some (.error e, c)

/-- Has no nested calls left. -/
def exhausted : Attempt α := fun _ => none

/-! ## Tokens -/

/-- The token at an index, which has to be one of the buffer. -/
def tokenAt (i : Nat) : Attempt Token := fun c => c.buffer[i]?.map fun t => (.ok t, c)

/-- The token `n` places ahead, or the last one of the buffer. -/
def peekAt (n : Nat) : Attempt Token := fun c => tokenAt (min (c.position + n) (c.buffer.length - 1)) c

def peek : Attempt Token := peekAt 0

/-- The token in front of the token ahead, if the token ahead is not the first one. -/
def previous : Attempt Token := fun c =>
  match c.position with
  | 0 => none
  | i + 1 => tokenAt i c

/-- Leaves the token ahead behind. -/
def move : Attempt Unit := fun c =>
  some (.ok (), { c with position := c.position + 1, passed := c.passed ++ [c.position] })

/-- Reads the token ahead. An end of file stays where it is. -/
def advance : Attempt Token := do
  let token ← peek
  if token.kind ≠ .eof then move
  return token

def check (k : TokenKind) : Attempt Bool := do return (← peek).kind == k

def eat (k : TokenKind) : Attempt (Option Token) := do
  if ← check k then return some (← advance)
  return none

/-- Reads a token of a given kind, or fails where it stands. -/
def expect (k : TokenKind) : Attempt Token := do
  if ← check k then advance else fail ⟨.expected k, ← peek⟩

/-- Does something, unless a token of a given kind is ahead. -/
def unlessAhead (k : TokenKind) (a : α) (x : Attempt α) : Attempt α := do
  if ← check k then return a else x

def fresh (span : Span) : Attempt Site := fun c =>
  some (.ok ⟨c.numbering.fresh.1, span⟩, { c with numbering := c.numbering.fresh.2 })

/-- A node, with the next number. -/
def node (span : Span) (f : Site → α) : Attempt α := do return f (← fresh span)

def ident : Attempt Ident := do
  let token ← expect .identifier
  return ⟨token.lexeme, token.span⟩

/-! ## Expressions -/

def eatOperator (l : Level) : Attempt (Option (BinaryOp × Span)) := do
  match l.operator? (← peek).kind with
  | none => return none
  | some op => return some (op, (← advance).span)

def binary (lhs : Expr) (op : BinaryOp) (opSpan : Span) (rhs : Expr) : Attempt Expr :=
  node (lhs.span.merge rhs.span) (.binary · op opSpan lhs rhs)

def literal (token : Token) : Except ParseFault (Site → Expr) → Attempt Expr
  | .error fault => fail ⟨fault, token⟩
  | .ok f => node token.span f

mutual

/-- An expression of layer `l` or a tighter one. -/
def expression : Nat → Level → Attempt Expr
  | 0, _ => exhausted
  | n + 1, .sign => do
    match UnaryOp.ofToken? (← peek).kind with
    | none => expression n .power
    | some op =>
      let mark ← advance
      let x ← expression n .sign
      node (mark.span.merge x.span) (.unary · op mark.span x)
  | n + 1, .atom => do
    let token ← peek
    match token.kind with
    | .intLiteral =>
      let _ ← advance
      literal token <| match word? token.lexeme with
        | some v => .ok (.int · v)
        | none => .error .integerOutOfRange
    | .floatLiteral =>
      let _ ← advance
      literal token <| match Binary64.ofDecimal? token.lexeme with
        | some v => .ok (.float · v)
        | none => .error .invalidFloat
    | .stringLiteral =>
      let _ ← advance
      literal token (.ok (.string · (Parser.unquote token.lexeme)))
    | .leftParen =>
      let _ ← advance
      let e ← expression n .assignment
      let _ ← expect .rightParen
      return e
    | .identifier =>
      if (← peekAt 1).kind = .leftParen then call n else reference n
    | .eof => fail ⟨.expectedExpression, token⟩
    | _ => fail ⟨.noOperand, token⟩
  | n + 1, l => do
    let lhs ← expression n l.tighter
    operators n l lhs

/-- Goes on behind an operand of layer `l` with the operators of that layer. -/
def operators : Nat → Level → Expr → Attempt Expr
  | 0, _, _ => exhausted
  | n + 1, l, lhs => do
    match ← eatOperator l with
    | none => return lhs
    | some (op, opSpan) =>
      match l.grouping with
      | .right =>
        let rhs ← expression n l
        binary lhs op opSpan rhs
      | .once =>
        let rhs ← expression n l.tighter
        -- The second operator is read before it is complained about, so it is the one in front of the token ahead.
        if (← eatOperator l).isSome then fail ⟨.nonAssociative, ← previous⟩
        else binary lhs op opSpan rhs
      | .left =>
        let rhs ← expression n l.tighter
        operators n l (← binary lhs op opSpan rhs)

/-- `name ( arguments )` -/
def call : Nat → Attempt Expr
  | 0 => exhausted
  | n + 1 => do
    let name ← ident
    let _ ← expect .leftParen
    let args ← unlessAhead .rightParen [] (argumentList n)
    let close ← expect .rightParen
    node (name.span.merge close.span) (.call · name args)

def argumentList : Nat → Attempt (List Expr)
  | 0 => exhausted
  | n + 1 => do
    let e ← expression n .assignment
    if (← eat .comma).isNone then return [e]
    return e :: (← argumentList n)

/-- `name` or `name [ expr ]` -/
def reference : Nat → Attempt Expr
  | 0 => exhausted
  | n + 1 => do
    let name ← ident
    if (← eat .leftBracket).isSome then
      let i ← expression n .assignment
      let close ← expect .rightBracket
      node (name.span.merge close.span) (.index · name i)
    else node name.span (.var · name)

end

/-! ## Statements -/

def emptyStmt : Attempt Stmt := do
  let semi ← advance
  node semi.span .empty

/-- `expr ;` -/
def exprStmt (n : Nat) : Attempt Stmt := do
  let e ← expression n .assignment
  let semi ← expect .semicolon
  node (e.span.merge semi.span) (.expr · e)

def arrayLength : Attempt ArrayLength := do
  let token ← expect .intLiteral
  match word? token.lexeme with
  | none => fail ⟨.integerOutOfRange, token⟩
  | some v => node token.span (⟨·, v⟩)

/-- `= expr`, or nothing. -/
def initializer (n : Nat) : Attempt (Option Expr) := do
  if (← eat .equals).isSome then return some (← expression n .assignment) else return none

/-- `type name ;`, `type name = expr ;` or `type name [ integer ] ;` -/
def declaration (n : Nat) : Attempt Stmt := do
  let type ← ident
  let name ← ident
  if (← eat .leftBracket).isSome then
    let length ← arrayLength
    let _ ← expect .rightBracket
    let semi ← expect .semicolon
    node (type.span.merge semi.span) (.array ⟨·, type, name⟩ length)
  else
    let init ← initializer n
    let semi ← expect .semicolon
    node (type.span.merge semi.span) (.decl ⟨·, type, name⟩ init)

/-- `return expr? ;` -/
def returnStmt (n : Nat) : Attempt Stmt := do
  let kw ← expect .returnKw
  let value ← unlessAhead .semicolon none (do return some (← expression n .assignment))
  let semi ← expect .semicolon
  node (kw.span.merge semi.span) (.ret · value)

/-- `( expr )` -/
def condition (n : Nat) : Attempt Expr := do
  let _ ← expect .leftParen
  let c ← expression n .assignment
  let _ ← expect .rightParen
  return c

/-- A declaration if two names are ahead, and an expression statement otherwise. -/
def simpleStmt (n : Nat) : Attempt Stmt := do
  if (← peek).kind = .identifier then
    if (← peekAt 1).kind = .identifier then declaration n else exprStmt n
  else exprStmt n

def forInit (n : Nat) : Attempt Stmt := do
  if (← peek).kind = .semicolon then emptyStmt else simpleStmt n

/-- `{ init while (c) { { body } step; } }`, numbered from the inside out. -/
def unrolledFor (init : Stmt) (c step : Expr) (body : Stmt) (span : Span) : Attempt Stmt := do
  let innerSite ← fresh body.span
  let stepSite ← fresh step.span
  let bodySite ← fresh span
  let loopSite ← fresh span
  let site ← fresh span
  return .block site [init, .loop loopSite c (.block bodySite [.block innerSite [body], .expr stepSite step])]

mutual

def statement : Nat → Attempt Stmt
  | 0 => exhausted
  | n + 1 => do
    match (← peek).kind with
    | .ifKw =>
      let kw ← expect .ifKw
      let c ← condition n
      let thenBranch ← statement n
      if (← eat .elseKw).isSome then
        let elseBranch ← statement n
        node (kw.span.merge elseBranch.span) (.ite · c thenBranch (some elseBranch))
      else node (kw.span.merge thenBranch.span) (.ite · c thenBranch none)
    | .whileKw =>
      let kw ← expect .whileKw
      let c ← condition n
      let body ← statement n
      node (kw.span.merge body.span) (.loop · c body)
    | .forKw =>
      let kw ← expect .forKw
      let _ ← expect .leftParen
      let init ← forInit n
      let c ← expression n .assignment
      let _ ← expect .semicolon
      let step ← expression n .assignment
      let _ ← expect .rightParen
      let body ← statement n
      unrolledFor init c step body (kw.span.merge body.span)
    | .returnKw => returnStmt n
    | .leftBrace => do
      let b ← block n
      return .block b.1 b.2
    | .semicolon => emptyStmt
    | _ => simpleStmt n

/-- `{ stmt* }`, as the node of the block and its statements. -/
def block : Nat → Attempt (Site × List Stmt)
  | 0 => exhausted
  | n + 1 => do
    let opening ← expect .leftBrace
    let body ← statements n
    let closing ← expect .rightBrace
    node (opening.span.merge closing.span) ((·, body))

/-- Statements up to a closing brace or the end of the tokens. -/
def statements : Nat → Attempt (List Stmt)
  | 0 => exhausted
  | n + 1 => do
    if ← check .rightBrace then return []
    if ← check .eof then return []
    let first ← statement n
    return first :: (← statements n)

end

/-! ## Programs -/

/-- `type name` -/
def param : Attempt Binder := do
  let type ← ident
  let name ← ident
  node (type.span.merge name.span) (⟨·, type, name⟩)

def paramList : Nat → Attempt (List Binder)
  | 0 => exhausted
  | n + 1 => do
    let p ← param
    if (← eat .comma).isNone then return [p]
    return p :: (← paramList n)

/-- `type name ( params ) block` -/
def function (n : Nat) : Attempt Func := do
  let returns ← ident
  let name ← ident
  let _ ← expect .leftParen
  let params ← unlessAhead .rightParen [] (paramList n)
  let _ ← expect .rightParen
  let body ← block n
  node (returns.span.merge body.1.span) (⟨·, returns, name, params, body.1, body.2⟩)

/-- Functions up to the end of the tokens. -/
def functions : Nat → Attempt (List Func)
  | 0 => exhausted
  | n + 1 => do
    if ← check .eof then return []
    let f ← function n
    return f :: (← functions n)

/-- A program. It spans from the first token to its last function. -/
def program (n : Nat) : Attempt Program := do
  let start ← peek
  let fs ← functions n
  node (match fs.getLast? with
    | some f => start.span.merge f.span
    | none => start.span) (⟨·, fs⟩)

end Attempt

end MicroC
