import MicroC.Parser.Program

/-!
# The grammar

The language as a set of derivations, each of a list of tokens and of the tree it stands for. Trees have
no numbers and no places.

```text
program        := function*
function       := name name '(' (name name (',' name name)*)? ')' '{' stmt* '}'
stmt           := simple | 'return' expr? ';' | '{' stmt* '}' | 'if' '(' expr ')' stmt ('else' stmt)?
                | 'while' '(' expr ')' stmt | 'for' '(' simple expr ';' expr ')' stmt
simple         := ';' | expr ';' | name name ('=' expr)? ';' | name name '[' integer ']' ';'
assignment     := equality ('=' assignment)?
equality       := comparison (('==' | '!=') comparison)?
comparison     := additive (('<' | '<=' | '>' | '>=') additive)?
additive       := multiplicative | additive ('+' | '-') multiplicative
multiplicative := unary | multiplicative ('*' | '/' | '%') unary
unary          := ('+' | '-') unary | exponent
exponent       := atom ('^' exponent)?
atom           := literal | '(' expr ')' | name | name '[' expr ']' | name '(' (expr (',' expr)*)? ')'
```

* `Term`, `Phrase`, `Routine`: trees, with `Expr.term`, `Stmt.phrase`, `Func.routine` from parsed ones.
* `Derives`, `Statement`, `Routines`: derivations.
-/

namespace MicroC.Grammar

/-! ## Trees -/

/-- An expression. A literal that is no number of its kind has no value. -/
inductive Term
  | int (value : Int)
  | float (value : Option Binary64)
  | string (text : String)
  | var (name : String)
  | index (name : String) (subscript : Term)
  | call (name : String) (args : List Term)
  | unary (op : UnaryOp) (operand : Term)
  | binary (op : BinaryOp) (lhs rhs : Term)

/-- A statement. -/
inductive Phrase
  | empty
  | ite (condition : Term) (thenBranch : Phrase) (elseBranch : Option Phrase)
  | loop (condition : Term) (body : Phrase)
  | ret (value : Option Term)
  | expr (e : Term)
  | decl (type name : String) (init : Option Term)
  | array (type name : String) (length : Int)
  | block (body : List Phrase)

/-- A parameter. -/
structure Param where
  type : String
  name : String

/-- A function. -/
structure Routine where
  returns : String
  name : String
  params : List Param
  body : List Phrase

end Grammar

/-! ## Trees of parsed programs -/

open Grammar

mutual

/-- An expression without numbers and places. -/
def Expr.term : Expr → Term
  | .int _ v => .int v.toInt
  | .float _ v => .float (some v)
  | .string _ s => .string s
  | .var _ n => .var n.name
  | .index _ n i => .index n.name i.term
  | .call _ n args => .call n.name (Expr.terms args)
  | .unary _ op _ x => .unary op x.term
  | .binary _ op _ x y => .binary op x.term y.term

def Expr.terms : List Expr → List Term
  | [] => []
  | e :: es => e.term :: Expr.terms es

end

mutual

/-- A statement without numbers and places. -/
def Stmt.phrase : Stmt → Phrase
  | .empty _ => .empty
  | .ite _ c x none => .ite c.term x.phrase none
  | .ite _ c x (some y) => .ite c.term x.phrase (some y.phrase)
  | .loop _ c x => .loop c.term x.phrase
  | .ret _ none => .ret none
  | .ret _ (some e) => .ret (some e.term)
  | .expr _ e => .expr e.term
  | .decl b none => .decl b.type.name b.name.name none
  | .decl b (some e) => .decl b.type.name b.name.name (some e.term)
  | .array b n => .array b.type.name b.name.name n.value.toInt
  | .block _ xs => .block (Stmt.phrases xs)

def Stmt.phrases : List Stmt → List Phrase
  | [] => []
  | x :: xs => x.phrase :: Stmt.phrases xs

end

def Binder.param (b : Binder) : Param := ⟨b.type.name, b.name.name⟩

/-- A function without numbers and places. -/
def Func.routine (f : Func) : Routine :=
  ⟨f.returns.name, f.name.name, f.params.map Binder.param, Stmt.phrases f.body⟩

def Program.routines (p : Program) : List Routine := p.functions.map Func.routine

namespace Grammar

/-! ## Derivations of expressions -/

/-- The token that spells an operator. -/
def mark : BinaryOp → TokenKind
  | .assign => .equals
  | .equal => .equalsEquals
  | .notEqual => .bangEquals
  | .less => .less
  | .lessEqual => .lessEquals
  | .greater => .greater
  | .greaterEqual => .greaterEquals
  | .add => .plus
  | .sub => .minus
  | .mul => .star
  | .div => .slash
  | .mod => .percent
  | .pow => .caret

/-- The token that spells a sign. -/
def signMark : UnaryOp → TokenKind
  | .plus => .plus
  | .neg => .minus

/-- The text between the quotes of a string. -/
def quoted (lexeme : String) : String := String.ofList lexeme.toList.tail.dropLast

mutual

/-- A list of tokens is an expression of a layer, and this is its tree. -/
inductive Derives : Level → List Token → Term → Prop
  | ofEquality {ts : List Token} {x : Term} (hx : Derives .equality ts x) :
      Derives .assignment ts x
  | assign {ts us : List Token} {t : Token} {x y : Term} (hx : Derives .equality ts x)
      (ht : t.kind = mark .assign) (hy : Derives .assignment us y) :
      Derives .assignment (ts ++ t :: us) (.binary .assign x y)
  | ofComparison {ts : List Token} {x : Term} (hx : Derives .comparison ts x) :
      Derives .equality ts x
  | equality {ts us : List Token} {t : Token} {op : BinaryOp} {x y : Term}
      (hx : Derives .comparison ts x) (ht : t.kind = mark op)
      (hop : op = .equal ∨ op = .notEqual) (hy : Derives .comparison us y) :
      Derives .equality (ts ++ t :: us) (.binary op x y)
  | ofAdditive {ts : List Token} {x : Term} (hx : Derives .sum ts x) : Derives .comparison ts x
  | comparison {ts us : List Token} {t : Token} {op : BinaryOp} {x y : Term}
      (hx : Derives .sum ts x) (ht : t.kind = mark op)
      (hop : op = .less ∨ op = .lessEqual ∨ op = .greater ∨ op = .greaterEqual)
      (hy : Derives .sum us y) : Derives .comparison (ts ++ t :: us) (.binary op x y)
  | ofMultiplicative {ts : List Token} {x : Term} (hx : Derives .product ts x) : Derives .sum ts x
  | additive {ts us : List Token} {t : Token} {op : BinaryOp} {x y : Term}
      (hx : Derives .sum ts x) (ht : t.kind = mark op) (hop : op = .add ∨ op = .sub)
      (hy : Derives .product us y) : Derives .sum (ts ++ t :: us) (.binary op x y)
  | ofUnary {ts : List Token} {x : Term} (hx : Derives .sign ts x) : Derives .product ts x
  | multiplicative {ts us : List Token} {t : Token} {op : BinaryOp} {x y : Term}
      (hx : Derives .product ts x) (ht : t.kind = mark op)
      (hop : op = .mul ∨ op = .div ∨ op = .mod) (hy : Derives .sign us y) :
      Derives .product (ts ++ t :: us) (.binary op x y)
  | unary {ts : List Token} {t : Token} {op : UnaryOp} {x : Term} (ht : t.kind = signMark op)
      (hx : Derives .sign ts x) : Derives .sign (t :: ts) (.unary op x)
  | ofExponent {ts : List Token} {x : Term} (hx : Derives .power ts x) : Derives .sign ts x
  | ofAtom {ts : List Token} {x : Term} (hx : Derives .atom ts x) : Derives .power ts x
  | exponent {ts us : List Token} {t : Token} {x y : Term} (hx : Derives .atom ts x)
      (ht : t.kind = mark .pow) (hy : Derives .power us y) :
      Derives .power (ts ++ t :: us) (.binary .pow x y)
  | int {t : Token} (ht : t.kind = .intLiteral) :
      Derives .atom [t] (.int (Decimal.value t.lexeme.toList))
  | float {t : Token} (ht : t.kind = .floatLiteral) :
      Derives .atom [t] (.float (Binary64.ofDecimal? t.lexeme))
  | string {t : Token} (ht : t.kind = .stringLiteral) :
      Derives .atom [t] (.string (quoted t.lexeme))
  | paren {ts : List Token} {l r : Token} {x : Term} (hl : l.kind = .leftParen)
      (hx : Derives .assignment ts x) (hr : r.kind = .rightParen) :
      Derives .atom (l :: ts ++ [r]) x
  | var {t : Token} (ht : t.kind = .identifier) : Derives .atom [t] (.var t.lexeme)
  | index {ts : List Token} {t l r : Token} {x : Term} (ht : t.kind = .identifier)
      (hl : l.kind = .leftBracket) (hx : Derives .assignment ts x) (hr : r.kind = .rightBracket) :
      Derives .atom (t :: l :: ts ++ [r]) (.index t.lexeme x)
  | callNone {t l r : Token} (ht : t.kind = .identifier) (hl : l.kind = .leftParen)
      (hr : r.kind = .rightParen) : Derives .atom [t, l, r] (.call t.lexeme [])
  | call {ts : List Token} {t l r : Token} {xs : List Term} (ht : t.kind = .identifier)
      (hl : l.kind = .leftParen) (hxs : DerivesList ts xs) (hr : r.kind = .rightParen) :
      Derives .atom (t :: l :: ts ++ [r]) (.call t.lexeme xs)

/-- One or more expressions with commas between them. -/
inductive DerivesList : List Token → List Term → Prop
  | last {ts : List Token} {x : Term} (hx : Derives .assignment ts x) : DerivesList ts [x]
  | more {ts us : List Token} {t : Token} {x : Term} {xs : List Term}
      (hx : Derives .assignment ts x) (ht : t.kind = .comma) (hxs : DerivesList us xs) :
      DerivesList (ts ++ t :: us) (x :: xs)

end

/-! ## Derivations of statements -/

/-- A list of tokens is a statement that may also start a `for` loop. -/
inductive Simple : List Token → Phrase → Prop
  | empty {t : Token} (ht : t.kind = .semicolon) : Simple [t] .empty
  | expr {ts : List Token} {t : Token} {x : Term} (hx : Derives .assignment ts x)
      (ht : t.kind = .semicolon) : Simple (ts ++ [t]) (.expr x)
  | decl {k n t : Token} (hk : k.kind = .identifier) (hn : n.kind = .identifier)
      (ht : t.kind = .semicolon) : Simple [k, n, t] (.decl k.lexeme n.lexeme none)
  | init {ts : List Token} {k n q t : Token} {x : Term} (hk : k.kind = .identifier)
      (hn : n.kind = .identifier) (hq : q.kind = .equals) (hx : Derives .assignment ts x)
      (ht : t.kind = .semicolon) :
      Simple (k :: n :: q :: ts ++ [t]) (.decl k.lexeme n.lexeme (some x))
  | array {k n l i r t : Token} (hk : k.kind = .identifier) (hn : n.kind = .identifier)
      (hl : l.kind = .leftBracket) (hi : i.kind = .intLiteral) (hr : r.kind = .rightBracket)
      (ht : t.kind = .semicolon) :
      Simple [k, n, l, i, r, t] (.array k.lexeme n.lexeme (Decimal.value i.lexeme.toList))

mutual

/-- A list of tokens is a statement. The first flag says whether every `else` must belong to the nearest
`if`; the second whether the statement ends in an `if` that an `else` behind it would belong to. -/
inductive Statement (nearest : Bool) : Bool → List Token → Phrase → Prop
  | simple {ts : List Token} {x : Phrase} (hx : Simple ts x) : Statement nearest false ts x
  | ret {k t : Token} (hk : k.kind = .returnKw) (ht : t.kind = .semicolon) :
      Statement nearest false [k, t] (.ret none)
  | retValue {ts : List Token} {k t : Token} {x : Term} (hk : k.kind = .returnKw)
      (hx : Derives .assignment ts x) (ht : t.kind = .semicolon) :
      Statement nearest false (k :: ts ++ [t]) (.ret (some x))
  | block {ts : List Token} {l r : Token} {xs : List Phrase} (hl : l.kind = .leftBrace)
      (hxs : Statements nearest ts xs) (hr : r.kind = .rightBrace) :
      Statement nearest false (l :: ts ++ [r]) (.block xs)
  | ifThen {o : Bool} {ts us : List Token} {k l r : Token} {c : Term} {x : Phrase}
      (hk : k.kind = .ifKw) (hl : l.kind = .leftParen) (hc : Derives .assignment ts c)
      (hr : r.kind = .rightParen) (hx : Statement nearest o us x) :
      Statement nearest true (k :: l :: ts ++ r :: us) (.ite c x none)
  | ifElse {o o' : Bool} {ts us vs : List Token} {k l r e : Token} {c : Term} {x y : Phrase}
      (hk : k.kind = .ifKw) (hl : l.kind = .leftParen) (hc : Derives .assignment ts c)
      (hr : r.kind = .rightParen) (hx : Statement nearest o us x)
      (ho : nearest = true → o = false) (he : e.kind = .elseKw) (hy : Statement nearest o' vs y) :
      Statement nearest o' (k :: l :: ts ++ r :: us ++ e :: vs) (.ite c x (some y))
  | loop {o : Bool} {ts us : List Token} {k l r : Token} {c : Term} {x : Phrase}
      (hk : k.kind = .whileKw) (hl : l.kind = .leftParen) (hc : Derives .assignment ts c)
      (hr : r.kind = .rightParen) (hx : Statement nearest o us x) :
      Statement nearest o (k :: l :: ts ++ r :: us) (.loop c x)
  | forLoop {o : Bool} {is ts us vs : List Token} {k l q r : Token} {c n : Term} {i x : Phrase}
      (hk : k.kind = .forKw) (hl : l.kind = .leftParen) (hi : Simple is i)
      (hc : Derives .assignment ts c) (hq : q.kind = .semicolon) (hn : Derives .assignment us n)
      (hr : r.kind = .rightParen) (hx : Statement nearest o vs x) :
      Statement nearest o (k :: l :: is ++ ts ++ q :: us ++ r :: vs)
        (.block [i, .loop c (.block [.block [x], .expr n])])

/-- Statements one behind the other. -/
inductive Statements (nearest : Bool) : List Token → List Phrase → Prop
  | nil : Statements nearest [] []
  | cons {o : Bool} {ts us : List Token} {x : Phrase} {xs : List Phrase}
      (hx : Statement nearest o ts x) (hxs : Statements nearest us xs) :
      Statements nearest (ts ++ us) (x :: xs)

end

/-! ## Derivations of programs -/

/-- One or more parameters with commas between them. -/
inductive Params : List Token → List Param → Prop
  | last {k n : Token} (hk : k.kind = .identifier) (hn : n.kind = .identifier) :
      Params [k, n] [⟨k.lexeme, n.lexeme⟩]
  | more {ts : List Token} {k n t : Token} {ps : List Param} (hk : k.kind = .identifier)
      (hn : n.kind = .identifier) (ht : t.kind = .comma) (hps : Params ts ps) :
      Params (k :: n :: t :: ts) (⟨k.lexeme, n.lexeme⟩ :: ps)

/-- Functions one behind the other. -/
inductive Routines (nearest : Bool) : List Token → List Routine → Prop
  | nil : Routines nearest [] []
  | cons {ps ts us : List Token} {k n l r b e : Token} {params : List Param} {body : List Phrase}
      {fs : List Routine} (hk : k.kind = .identifier) (hn : n.kind = .identifier)
      (hl : l.kind = .leftParen) (hps : ps = [] ∧ params = [] ∨ Params ps params)
      (hr : r.kind = .rightParen) (hb : b.kind = .leftBrace) (hxs : Statements nearest ts body)
      (he : e.kind = .rightBrace) (hfs : Routines nearest us fs) :
      Routines nearest (k :: n :: l :: ps ++ r :: b :: ts ++ e :: us)
        (⟨k.lexeme, n.lexeme, params, body⟩ :: fs)

/-- Every integer in a list of tokens is a word. -/
def InRange (ts : List Token) : Prop :=
  ∀ t ∈ ts, t.kind = .intLiteral → Decimal.value t.lexeme.toList ≤ Int64.maxValue.toInt.toNat

end MicroC.Grammar
