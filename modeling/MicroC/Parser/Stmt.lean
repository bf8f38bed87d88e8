import MicroC.Parser.Expr

/-!
# Parsing statements

```text
stmt := ';' | '{' stmt* '}' | declaration | expr ';' | 'return' expr? ';'
      | 'if' '(' expr ')' stmt ('else' stmt)? | 'while' '(' expr ')' stmt
      | 'for' '(' init expr ';' expr ')' stmt
init := ';' | declaration | expr ';'
declaration := name name ('=' expr)? ';' | name name '[' integer ']' ';'
```

A statement that starts with two names is a declaration. A loop `for (init c; step) body` is spelled
out as `{ init while (c) { { body } step; } }`.

* `Parser.statement`: a statement.
* `Parser.unrolledFor`: the nodes that a `for` loop stands for.
-/

namespace MicroC.Parser

/-! ## Statements without parts that are statements -/

/-- An empty statement; its semicolon is ahead. -/
def emptyStmt (s : Parser) : Progress s Stmt :=
  (Progress.expect s .semicolon).andThen fun semi _ _ =>
    .node semi.span .empty

/-- `expr ;` -/
def exprStmt (s : Parser) : Progress s Stmt :=
  (expression .assignment s).andThen fun e t _ =>
    (Reading.expect t .semicolon).andThen fun semi _ _ =>
      .node (e.span.merge semi.span) (.expr · e)

/-- An integer literal as the length of an array. -/
def arrayLength (s : Parser) : Reading s ArrayLength :=
  (Reading.expect s .intLiteral).andThen fun token _ _ =>
    match word? token.lexeme with
    | none => .stop ⟨.integerOutOfRange, token⟩
    | some v => .node token.span (⟨·, v⟩)

/-- The part of a declaration behind its type and name. -/
def declarationRest (type name : Ident) (s : Parser) : Reading s Stmt :=
  if s.check .leftBracket then
    Reading.since ((arrayLength s.advance).andThen fun n t _ =>
      (Reading.expect t .rightBracket).andThen fun _ u _ =>
        (Reading.expect u .semicolon).andThen fun semi _ _ =>
          .node (type.span.merge semi.span) (.array ⟨·, type, name⟩ n)) s.size_advance_le
  else
    Reading.andThen (initializer s) fun init t _ =>
      (Reading.expect t .semicolon).andThen fun semi _ _ =>
        .node (type.span.merge semi.span) (.decl ⟨·, type, name⟩ init)
where
  /-- `= expr`, or nothing. -/
  initializer (s : Parser) : Reading s (Option Expr) :=
    if s.check .equals then
      Reading.since ((expression .assignment s.advance).map some).reading s.size_advance_le
    else .pure none

/-- `type name ;`, `type name = expr ;` or `type name [ integer ] ;` -/
def declaration (s : Parser) : Progress s Stmt :=
  (Progress.ident s).andThen fun type t _ =>
    (Progress.ident t).reading.andThen fun name u _ => declarationRest type name u

/-- `return expr? ;` -/
def returnStmt (s : Parser) : Progress s Stmt :=
  (Progress.expect s .returnKw).andThen fun kw t _ =>
    (value t).andThen fun v u _ =>
      (Reading.expect u .semicolon).andThen fun semi _ _ =>
        .node (kw.span.merge semi.span) (.ret · v)
where
  /-- The value returned, if there is one. -/
  value (s : Parser) : Reading s (Option Expr) :=
    if s.check .semicolon then .pure none else ((expression .assignment s).map some).reading

/-- `( expr )` -/
def condition (s : Parser) : Progress s Expr :=
  (Progress.expect s .leftParen).andThen fun _ t _ =>
    (expression .assignment t).reading.andThen fun c u _ =>
      (Reading.expect u .rightParen).andThen fun _ _ _ => .pure c

/-- Whether two names are ahead. -/
def startsDeclaration (s : Parser) : Bool :=
  s.check .identifier && (s.peekAt 1).kind == .identifier

/-- What a `for` loop does first. -/
def forInit (s : Parser) : Progress s Stmt :=
  if s.check .semicolon then emptyStmt s
  else if s.startsDeclaration then declaration s
  else exprStmt s

/-! ## Loops spelled out -/

/-- `{ init while (c) { { body } step; } }`. The new nodes are numbered from the inside out. -/
def unrolledFor (s : Parser) (init : Stmt) (c step : Expr) (body : Stmt) (span : Span) :
    Stmt × Parser :=
  let (innerSite, s) := s.fresh body.span
  let (stepSite, s) := s.fresh step.span
  let (bodySite, s) := s.fresh span
  let (loopSite, s) := s.fresh span
  let (site, s) := s.fresh span
  (.block site [init, .loop loopSite c (.block bodySite
    [.block innerSite [body], .expr stepSite step])], s)

@[simp] theorem size_unrolledFor (s : Parser) (init : Stmt) (c step : Expr) (body : Stmt)
    (span : Span) : (s.unrolledFor init c step body span).2.size = s.size := rfl

/-! ## The grammar -/

mutual

/-- A statement. -/
def statement (s : Parser) : Progress s Stmt :=
  match s.peek.kind with
  | .ifKw =>
    (Progress.expect s .ifKw).andThen fun kw t ht =>
      (condition t).reading.andThen fun c u hu =>
        (statement u).reading.andThen fun thenBranch v hv =>
          have hv' := v.size_advance_le
          if v.check .elseKw then
            Reading.since ((statement v.advance).reading.andThen fun elseBranch _ _ =>
              .node (kw.span.merge elseBranch.span) (.ite · c thenBranch (some elseBranch))) hv'
          else
            .node (kw.span.merge thenBranch.span) (.ite · c thenBranch none)
  | .whileKw =>
    (Progress.expect s .whileKw).andThen fun kw t ht =>
      (condition t).reading.andThen fun c u hu =>
        (statement u).reading.andThen fun body _ _ =>
          .node (kw.span.merge body.span) (.loop · c body)
  | .forKw =>
    (Progress.expect s .forKw).andThen fun kw t ht =>
      (Reading.expect t .leftParen).andThen fun _ u hu =>
        (forInit u).reading.andThen fun init v hv =>
          (expression .assignment v).reading.andThen fun c w hw =>
            (Reading.expect w .semicolon).andThen fun _ x hx =>
              (expression .assignment x).reading.andThen fun step y hy =>
                (Reading.expect y .rightParen).andThen fun _ z hz =>
                  (statement z).reading.andThen fun body r _ =>
                    .ok (r.unrolledFor init c step body (kw.span.merge body.span)).1
                      (r.unrolledFor init c step body (kw.span.merge body.span)).2 (Nat.le_refl _)
  | .returnKw => returnStmt s
  | .leftBrace => (block s).map fun b => .block b.1 b.2
  | .semicolon => emptyStmt s
  | _ => if s.startsDeclaration then declaration s else exprStmt s
termination_by (s.size, 1)

/-- `{ stmt* }`, as the node of the block and its statements. -/
def block (s : Parser) : Progress s (Site × List Stmt) :=
  (Progress.expect s .leftBrace).andThen fun opening t ht =>
    (statements t).andThen fun body u _ =>
      (Reading.expect u .rightBrace).andThen fun closing _ _ =>
        .node (opening.span.merge closing.span) ((·, body))
termination_by (s.size, 0)

/-- Statements up to a closing brace or the end of the tokens, which stays ahead. -/
def statements (s : Parser) : Reading s (List Stmt) :=
  if s.check .rightBrace || s.isAtEnd then .pure []
  else
    Progress.reading ((statement s).andThen fun first t _ =>
      (statements t).andThen fun rest _ _ => .pure (first :: rest))
termination_by (s.size, 2)

end

end MicroC.Parser
