import MicroC.Analysis.Error
import MicroC.Table

/-!
# Scopes

Every use of a variable is bound to the declaration it refers to: the latest one before the use in
the innermost scope that has one. A function's parameters, a block, a branch of an `if` and the body
of a loop are scopes of their own. A name can be declared once in a scope, and a declaration is not
yet visible in its own initializer.

* `Scopes.find?`: the visible declaration of a name.
* `resolve`: binds all uses of a program.
-/

namespace MicroC

/-- Uses of variables and the declarations they refer to. -/
abbrev SymbolTable := Table NodeId NodeId

/-- One line for each use, in the order of their numbers. -/
def SymbolTable.text (t : SymbolTable) : String :=
  String.join (t.entries.map fun e => s!"{e.1.text} -> {e.2.text}\n")

/-- The declarations of one scope, the latest first. -/
abbrev Scope := List (String × NodeId)

/-- The scopes around a place: the innermost one, and those around it from the inside out. -/
structure Scopes where
  inner : Scope
  outer : List Scope

namespace Scopes

/-- No declarations at all. -/
def root : Scopes := ⟨[], []⟩

/-- Opens a scope inside. -/
def enter (s : Scopes) : Scopes := ⟨[], s.inner :: s.outer⟩

/-- The declaration that a name refers to. -/
def find? (s : Scopes) (name : String) : Option NodeId :=
  (s.inner :: s.outer).findSome? (·.lookup name)

/-- Declares a name in the innermost scope. -/
def define (s : Scopes) (n : Ident) (id : NodeId) : Pass SymbolTable Scopes :=
  if (s.inner.lookup n.name).isSome then .reject (.variableRedefinition n.name) n.span
  else pure { s with inner := (n.name, id) :: s.inner }

/-- Declares names one after the other. -/
def defineAll (s : Scopes) : List Binder → Pass SymbolTable Scopes
  | [] => pure s
  | b :: bs => do (← s.define b.name b.site.id).defineAll bs

/-- Binds a use to the declaration its name refers to. -/
def bindUse (s : Scopes) (use : NodeId) (n : Ident) : Pass SymbolTable Unit :=
  match s.find? n.name with
  | some d => modify (·.insert use d)
  | none => .reject (.undefinedVariable n.name) n.span

end Scopes

mutual

/-- Binds the uses in an expression, from left to right. -/
def resolveExpr (s : Scopes) : Expr → Pass SymbolTable Unit
  | .int .. | .float .. | .string .. => pure ()
  | .var site n => s.bindUse site.id n
  | .index site n i => do
    resolveExpr s i
    s.bindUse site.id n
  | .call _ _ args => resolveExprs s args
  | .unary _ _ _ x => resolveExpr s x
  | .binary _ _ _ x y => do
    resolveExpr s x
    resolveExpr s y

/-- Binds the uses in a list of expressions. -/
def resolveExprs (s : Scopes) : List Expr → Pass SymbolTable Unit
  | [] => pure ()
  | e :: es => do
    resolveExpr s e
    resolveExprs s es

end

/-- Binds the uses in an expression that may be missing. -/
def resolveOption (s : Scopes) : Option Expr → Pass SymbolTable Unit
  | none => pure ()
  | some e => resolveExpr s e

mutual

/-- Binds the uses in a statement and gives the scopes behind it. -/
def resolveStmt (s : Scopes) : Stmt → Pass SymbolTable Scopes
  | .empty _ => pure s
  | .ite _ c t none => do
    resolveExpr s c
    let _ ← resolveStmt s.enter t
    return s
  | .ite _ c t (some e) => do
    resolveExpr s c
    let _ ← resolveStmt s.enter t
    let _ ← resolveStmt s.enter e
    return s
  | .loop _ c b => do
    resolveExpr s c
    let _ ← resolveStmt s.enter b
    return s
  | .ret _ v => do
    resolveOption s v
    return s
  | .expr _ e => do
    resolveExpr s e
    return s
  | .decl b init => do
    resolveOption s init
    s.define b.name b.site.id
  | .array b _ => s.define b.name b.site.id
  | .block _ body => do
    resolveStmts s.enter body
    return s

/-- Binds the uses in statements one after the other. -/
def resolveStmts (s : Scopes) : List Stmt → Pass SymbolTable Unit
  | [] => pure ()
  | x :: xs => do
    let s' ← resolveStmt s x
    resolveStmts s' xs

end

/-- Binds the uses in a function. Its body is a scope inside that of its parameters. -/
def resolveFunction (f : Func) : Pass SymbolTable Unit := do
  let s ← Scopes.root.enter.defineAll f.params
  resolveStmts s.enter f.body

/-- Binds all uses of a program. -/
def resolve : List Func → Pass SymbolTable Unit
  | [] => pure ()
  | f :: fs => do
    resolveFunction f
    resolve fs

end MicroC
