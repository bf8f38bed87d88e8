import MicroC.Ast.Operator
import MicroC.Decimal.Binary64
import MicroC.NodeId

/-!
# Programs

A parsed program. Every node has a number and a span; a name is kept with its place. The loop
`for` has no node of its own: the parser spells it out with `while`.
-/

namespace MicroC

/-- The number and the span of a node. -/
structure Site where
  id : NodeId
  span : Span
deriving DecidableEq, Repr, Inhabited

/-- A name as it is written. -/
structure Ident where
  name : String
  span : Span
deriving DecidableEq, Repr, Inhabited

/-- An expression. -/
inductive Expr
  | int (site : Site) (value : Int64)
  | float (site : Site) (value : Binary64)
  | string (site : Site) (value : String)
  /-- The value of a variable. -/
  | var (site : Site) (name : Ident)
  /-- `name[subscript]` -/
  | index (site : Site) (name : Ident) (subscript : Expr)
  | call (site : Site) (name : Ident) (args : List Expr)
  | unary (site : Site) (op : UnaryOp) (opSpan : Span) (operand : Expr)
  /-- Binary operators, assignment among them. -/
  | binary (site : Site) (op : BinaryOp) (opSpan : Span) (lhs rhs : Expr)

namespace Expr

def site : Expr → Site
  | .int s _ | .float s _ | .string s _ | .var s _ | .index s _ _ | .call s _ _ | .unary s _ _ _
  | .binary s _ _ _ _ => s

def id (e : Expr) : NodeId := e.site.id

def span (e : Expr) : Span := e.site.span

/-- The name of the kind of node. -/
def kindName : Expr → String
  | .int .. => "IntLiteral"
  | .float .. => "FloatLiteral"
  | .string .. => "StringLiteral"
  | .var .. => "VarRefExpr"
  | .index .. => "ArrayRefExpr"
  | .call .. => "FuncCallExpr"
  | .unary .. => "UnaryOpExpr"
  | .binary .. => "BinaryOpExpr"

end Expr

/-- A declared name with its type: a parameter, or what a variable declaration introduces. -/
structure Binder where
  site : Site
  type : Ident
  name : Ident
deriving DecidableEq, Repr, Inhabited

/-- The length of an array declaration, a node of its own. -/
structure ArrayLength where
  site : Site
  value : Int64
deriving DecidableEq, Repr

/-- A statement. -/
inductive Stmt
  | empty (site : Site)
  | ite (site : Site) (condition : Expr) (thenBranch : Stmt) (elseBranch : Option Stmt)
  /-- `while (condition) body` -/
  | loop (site : Site) (condition : Expr) (body : Stmt)
  | ret (site : Site) (value : Option Expr)
  | expr (site : Site) (e : Expr)
  | decl (binder : Binder) (init : Option Expr)
  | array (binder : Binder) (length : ArrayLength)
  | block (site : Site) (body : List Stmt)

namespace Stmt

def site : Stmt → Site
  | .empty s | .ite s _ _ _ | .loop s _ _ | .ret s _ | .expr s _ | .block s _ => s
  | .decl b _ | .array b _ => b.site

def id (s : Stmt) : NodeId := s.site.id

def span (s : Stmt) : Span := s.site.span

/-- The name of the kind of node. -/
def kindName : Stmt → String
  | .empty _ => "EmptyStmt"
  | .ite .. => "IfStmt"
  | .loop .. => "WhileStmt"
  | .ret .. => "ReturnStmt"
  | .expr .. => "ExprStmt"
  | .decl .. => "VarDecl"
  | .array .. => "ArrayDecl"
  | .block .. => "CompoundStmt"

end Stmt

/-- A function. The body is a block with a node of its own. -/
structure Func where
  site : Site
  returns : Ident
  name : Ident
  params : List Binder
  bodySite : Site
  body : List Stmt

namespace Func

def id (f : Func) : NodeId := f.site.id

def span (f : Func) : Span := f.site.span

end Func

/-- A whole program. -/
structure Program where
  site : Site
  functions : List Func

namespace Program

/-- The first function with a given name. -/
def find? (p : Program) (name : String) : Option Func :=
  p.functions.find? (·.name.name == name)

end Program

end MicroC
