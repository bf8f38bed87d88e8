import MicroC.Ast.Basic
import MicroC.Machine.Host

/-!
# What is asked of programs

* `Stmt.initialised`: every variable has an initial value.
* `Stmt.valued`: every `return` has a value.
* `Expr.callDepth`, `Stmt.callDepth`: how many calls stand inside one another.
* `Program.arityOf`: how many arguments a function takes.
-/

namespace MicroC

mutual

/-- Every variable that a statement declares has an initial value. -/
def Stmt.initialised : Stmt → Bool
  | .empty _ | .ret .. | .expr .. | .array .. => true
  | .ite _ _ t none => t.initialised
  | .ite _ _ t (some e) => t.initialised && e.initialised
  | .loop _ _ b => b.initialised
  | .decl _ init => init.isSome
  | .block _ body => Stmt.initialisedAll body

/-- Every variable that statements declare has an initial value. -/
def Stmt.initialisedAll : List Stmt → Bool
  | [] => true
  | s :: ss => s.initialised && Stmt.initialisedAll ss

end

mutual

/-- Every `return` in a statement has a value. -/
def Stmt.valued : Stmt → Bool
  | .empty _ | .expr .. | .decl .. | .array .. => true
  | .ite _ _ t none => t.valued
  | .ite _ _ t (some e) => t.valued && e.valued
  | .loop _ _ b => b.valued
  | .ret _ v => v.isSome
  | .block _ body => Stmt.valuedAll body

/-- Every `return` in statements has a value. -/
def Stmt.valuedAll : List Stmt → Bool
  | [] => true
  | s :: ss => s.valued && Stmt.valuedAll ss

end

mutual

/-- How many calls stand inside one another. -/
def Expr.callDepth : Expr → Nat
  | .int .. | .float .. | .string .. | .var .. => 0
  | .index _ _ i => i.callDepth
  | .call _ _ args => Expr.callDepthAll args + 1
  | .unary _ _ _ x => x.callDepth
  | .binary _ _ _ x y => max x.callDepth y.callDepth

/-- How many calls stand inside one another in some of the expressions. -/
def Expr.callDepthAll : List Expr → Nat
  | [] => 0
  | e :: es => max e.callDepth (Expr.callDepthAll es)

end

/-- How many calls stand inside one another, if there is an expression at all. -/
def Expr.callDepthOption : Option Expr → Nat
  | none => 0
  | some e => e.callDepth

mutual

/-- How many calls stand inside one another in a statement. -/
def Stmt.callDepth : Stmt → Nat
  | .empty _ | .array .. => 0
  | .ite _ c t none => max c.callDepth t.callDepth
  | .ite _ c t (some e) => max c.callDepth (max t.callDepth e.callDepth)
  | .loop _ c b => max c.callDepth b.callDepth
  | .ret _ v => Expr.callDepthOption v
  | .expr _ e => e.callDepth
  | .decl _ init => Expr.callDepthOption init
  | .block _ body => Stmt.callDepthAll body

/-- How many calls stand inside one another in some of the statements. -/
def Stmt.callDepthAll : List Stmt → Nat
  | [] => 0
  | s :: ss => max s.callDepth (Stmt.callDepthAll ss)

end

namespace Program

/-- Every local variable has an initial value. -/
def initialised (p : Program) : Bool := p.functions.all fun f => Stmt.initialisedAll f.body

/-- Every `return` has a value. -/
def valued (p : Program) : Bool := p.functions.all fun f => Stmt.valuedAll f.body

/-- How many arguments a function of a program or of the host takes. -/
def arityOf (p : Program) (n : String) : Option Nat :=
  match p.find? n with
  | some f => some f.params.length
  | none => (Intrinsic.ofName? n).map Intrinsic.arity

end Program

end MicroC
