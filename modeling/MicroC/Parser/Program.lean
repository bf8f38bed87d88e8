import MicroC.Parser.Stmt
import MicroC.Token.Lexer

/-!
# Parsing programs

```text
program  := function*
function := name name '(' (name name (',' name name)*)? ')' block
```

* `Parser.program`: a whole program.
* `parseProgram`, `parseExpr`, `parseStmt`: a source text that is one program, expression or
  statement from its first token to its last.
-/

namespace MicroC

namespace Parser

/-- `type name` -/
def param (s : Parser) : Progress s Binder :=
  (Progress.ident s).andThen fun type t _ =>
    (Progress.ident t).reading.andThen fun name _ _ =>
      .node (type.span.merge name.span) (⟨·, type, name⟩)

/-- One or more parameters with commas between them. -/
def paramList (s : Parser) : Progress s (List Binder) :=
  (param s).andThen fun p t _ =>
    have ht' := t.size_advance_le
    if t.check .comma then
      Reading.since ((paramList t.advance).reading.andThen fun ps _ _ => .pure (p :: ps)) ht'
    else .pure [p]
termination_by s.size

/-- The parameters of a function, up to the closing parenthesis, which stays ahead. -/
def params (s : Parser) : Reading s (List Binder) :=
  if s.check .rightParen then .pure [] else (paramList s).reading

/-- `type name ( params ) block` -/
def function (s : Parser) : Progress s Func :=
  (Progress.ident s).andThen fun returns t _ =>
    (Progress.ident t).reading.andThen fun name u _ =>
      (Reading.expect u .leftParen).andThen fun _ v _ =>
        (params v).andThen fun params w _ =>
          (Reading.expect w .rightParen).andThen fun _ x _ =>
            (block x).reading.andThen fun body _ _ =>
              .node (returns.span.merge body.1.span) (⟨·, returns, name, params, body.1, body.2⟩)

/-- Functions up to the end of the tokens. -/
def functions (s : Parser) : Reading s (List Func) :=
  if s.isAtEnd then .pure []
  else
    Progress.reading ((function s).andThen fun f t _ =>
      (functions t).andThen fun fs _ _ => .pure (f :: fs))
termination_by s.size

/-- A program. It spans from the first token to its last function. -/
def program (s : Parser) : Reading s Program :=
  (functions s).andThen fun fs _ _ =>
    .node (match fs.getLast? with
      | some f => s.peek.span.merge f.span
      | none => s.peek.span) (⟨·, fs⟩)

end Parser

/-! ## Whole sources -/

/-- Why a source text is no program, expression or statement. -/
inductive ReadError
  /-- The faults of the scan; parsing was not tried. -/
  | lex (errors : List LexError)
  | parse (error : ParseError)
deriving DecidableEq, Repr

/-- Scans a source and parses all of its tokens. -/
def parseSource {α : Type} (parse : Parser → Except ParseError α × Parser) (source : String) :
    Except ReadError α :=
  match (scan source).result with
  | .error es => .error (.lex es)
  | .ok tokens =>
    match parse (.ofTokens tokens) with
    | (.error e, _) => .error (.parse e)
    | (.ok a, s) =>
      match (s.expect .eof).1 with
      | .error e => .error (.parse e)
      | .ok _ => .ok a

/-- The program a source text is. -/
def parseProgram : String → Except ReadError Program := parseSource fun s => s.program.1

/-- The expression a source text is. -/
def parseExpr : String → Except ReadError Expr := parseSource fun s => (s.expression .assignment).1

/-- The statement a source text is. -/
def parseStmt : String → Except ReadError Stmt := parseSource fun s => s.statement.1

end MicroC
