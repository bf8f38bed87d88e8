import MicroC.Parser.State

/-!
# Programs without places

What is left of tokens and programs when their places are forgotten: kinds, texts, and the numbers of nodes. A
stage whose result depends on nothing else commutes with forgetting places.

* `Span.nowhere`: the place of all that has lost its place.
* `Token.unplaced`, `Expr.unplaced`, `Stmt.unplaced`, `Program.unplaced`: the same without places.
* `Parser.unplaced`: a parser in front of tokens without places.
-/

namespace MicroC

/-- The place of all that has lost its place. Merging does not lead away from it. -/
def Span.nowhere : Span := ⟨0, 0, 0⟩

@[simp] theorem Span.merge_nowhere : nowhere.merge nowhere = nowhere := rfl

/-! ## Tokens -/

def Token.unplaced (t : Token) : Token := { t with span := .nowhere }

@[simp] theorem Token.unplaced_kind (t : Token) : t.unplaced.kind = t.kind := rfl

@[simp] theorem Token.unplaced_lexeme (t : Token) : t.unplaced.lexeme = t.lexeme := rfl

@[simp] theorem Token.unplaced_span (t : Token) : t.unplaced.span = .nowhere := rfl

/-! ## Nodes -/

def Site.unplaced (s : Site) : Site := { s with span := .nowhere }

@[simp] theorem Site.unplaced_id (s : Site) : s.unplaced.id = s.id := rfl

@[simp] theorem Site.unplaced_span (s : Site) : s.unplaced.span = .nowhere := rfl

def Ident.unplaced (n : Ident) : Ident := { n with span := .nowhere }

@[simp] theorem Ident.unplaced_name (n : Ident) : n.unplaced.name = n.name := rfl

@[simp] theorem Ident.unplaced_span (n : Ident) : n.unplaced.span = .nowhere := rfl

mutual

def Expr.unplaced : Expr → Expr
  | .int s v => .int s.unplaced v
  | .float s v => .float s.unplaced v
  | .string s v => .string s.unplaced v
  | .var s n => .var s.unplaced n.unplaced
  | .index s n x => .index s.unplaced n.unplaced x.unplaced
  | .call s n xs => .call s.unplaced n.unplaced (Expr.unplacedAll xs)
  | .unary s op _ x => .unary s.unplaced op .nowhere x.unplaced
  | .binary s op _ x y => .binary s.unplaced op .nowhere x.unplaced y.unplaced

def Expr.unplacedAll : List Expr → List Expr
  | [] => []
  | x :: xs => x.unplaced :: Expr.unplacedAll xs

end

namespace Expr

@[simp] theorem unplaced_site (e : Expr) : e.unplaced.site = e.site.unplaced := by
  cases e <;> rfl

@[simp] theorem unplaced_id (e : Expr) : e.unplaced.id = e.id := by rw [id, unplaced_site, Site.unplaced_id, id]

@[simp] theorem unplaced_span (e : Expr) : e.unplaced.span = .nowhere := by
  rw [span, unplaced_site, Site.unplaced_span]

@[simp] theorem length_unplacedAll (es : List Expr) : (unplacedAll es).length = es.length := by
  induction es with
  | nil => rfl
  | cons e es ih => rw [unplacedAll, List.length_cons, List.length_cons, ih]

end Expr

def Binder.unplaced (b : Binder) : Binder := ⟨b.site.unplaced, b.type.unplaced, b.name.unplaced⟩

@[simp] theorem Binder.unplaced_site (b : Binder) : b.unplaced.site = b.site.unplaced := rfl

@[simp] theorem Binder.unplaced_type (b : Binder) : b.unplaced.type = b.type.unplaced := rfl

@[simp] theorem Binder.unplaced_name (b : Binder) : b.unplaced.name = b.name.unplaced := rfl

def ArrayLength.unplaced (n : ArrayLength) : ArrayLength := { n with site := n.site.unplaced }

@[simp] theorem ArrayLength.unplaced_site (n : ArrayLength) : n.unplaced.site = n.site.unplaced := rfl

@[simp] theorem ArrayLength.unplaced_value (n : ArrayLength) : n.unplaced.value = n.value := rfl

mutual

def Stmt.unplaced : Stmt → Stmt
  | .empty s => .empty s.unplaced
  | .ite s c x none => .ite s.unplaced c.unplaced x.unplaced none
  | .ite s c x (some y) => .ite s.unplaced c.unplaced x.unplaced (some y.unplaced)
  | .loop s c x => .loop s.unplaced c.unplaced x.unplaced
  | .ret s v => .ret s.unplaced (v.map Expr.unplaced)
  | .expr s e => .expr s.unplaced e.unplaced
  | .decl b init => .decl b.unplaced (init.map Expr.unplaced)
  | .array b n => .array b.unplaced n.unplaced
  | .block s xs => .block s.unplaced (Stmt.unplacedAll xs)

def Stmt.unplacedAll : List Stmt → List Stmt
  | [] => []
  | x :: xs => x.unplaced :: Stmt.unplacedAll xs

end

@[simp] theorem Stmt.unplaced_site (x : Stmt) : x.unplaced.site = x.site.unplaced := by
  fun_cases Stmt.unplaced x <;> rfl

@[simp] theorem Stmt.unplaced_span (x : Stmt) : x.unplaced.span = .nowhere := by
  rw [span, unplaced_site, Site.unplaced_span]

def Func.unplaced (f : Func) : Func :=
  ⟨f.site.unplaced, f.returns.unplaced, f.name.unplaced, f.params.map Binder.unplaced, f.bodySite.unplaced,
    Stmt.unplacedAll f.body⟩

def Program.unplaced (p : Program) : Program := ⟨p.site.unplaced, p.functions.map Func.unplaced⟩

/-! ## Parsers -/

def ParseError.unplaced (e : ParseError) : ParseError := { e with token := e.token.unplaced }

namespace Parser

/-- The same tokens without places, and the same numbers. -/
def unplaced (s : Parser) : Parser := ⟨s.ahead.map Token.unplaced, .nowhere, s.numbering⟩

theorem peekAt_unplaced (s : Parser) (n : Nat) : s.unplaced.peekAt n = (s.peekAt n).unplaced := by
  show (s.ahead.map Token.unplaced).getD n s.endToken.unplaced = _
  rw [List.getD_eq_getElem?_getD, List.getElem?_map, Option.getD_map, peekAt, List.getD_eq_getElem?_getD]

@[simp] theorem peek_unplaced (s : Parser) : s.unplaced.peek = s.peek.unplaced := s.peekAt_unplaced 0

@[simp] theorem check_unplaced (s : Parser) (k : TokenKind) : s.unplaced.check k = s.check k := by
  rw [check, check, peek_unplaced, Token.unplaced_kind]

@[simp] theorem isAtEnd_unplaced (s : Parser) : s.unplaced.isAtEnd = s.isAtEnd := s.check_unplaced .eof

@[simp] theorem advance_unplaced (s : Parser) : s.unplaced.advance = s.advance.unplaced := by
  obtain ⟨ahead, stop, numbering⟩ := s
  cases ahead with
  | nil => rfl
  | cons t ts =>
    show (if t.kind = .eof then _ else _) = unplaced (if t.kind = .eof then _ else _)
    split <;> rfl

end Parser

end MicroC
