import MicroC.Analysis.Scope
import MicroC.Machine.Host

/-!
# What programs mean

The value of a program, told from its tree alone: from the declarations that its names refer to, and the places
it reads from and prints to. No code, no stack and no registers come into it.

An evaluation is given a bound on the rounds of each loop and one on the calls inside one another, and stops where
it would pass one of them.

* `Env`: the variables in scope.
* `BinaryOp.value`: operators.
* `Expr.eval`, `Stmt.eval`: expressions and statements.
* `Program.call`, `Program.Evaluates`: calls.
-/

namespace MicroC

/-- Why an evaluation comes to no value. -/
inductive Stop
  | failure (e : MachineError)
  /-- A bound is reached. -/
  | unfinished
  /-- There is something without a meaning. -/
  | stuck

/-- An evaluation, which may read and print. -/
abbrev Eval (σ : Type) := EStateM Stop σ

/-- A value or an error as the result of an evaluation. -/
def Eval.result {σ α : Type} : Except MachineError α → σ → EStateM.Result Stop σ α
  | .ok v, host => .ok v host
  | .error e, host => .error (.failure e) host

/-! ## Variables -/

/-- The variables in scope with their values, the latest first. -/
abbrev Env := List (NodeId × Int64)

namespace Env

/-- The value of a variable. -/
def get? (d : NodeId) : Env → Option Int64
  | [] => none
  | (e, w) :: env => if d = e then some w else get? d env

/-- Gives a variable a value. -/
def set (d : NodeId) (v : Int64) : Env → Env
  | [] => []
  | (e, w) :: env => if d = e then (d, v) :: env else (e, w) :: set d v env

/-- The declarations in scope. -/
def slots (env : Env) : List NodeId := env.map Prod.fst

/-- The variables that were in scope in front of a block. -/
def leave (outer env : Env) : Env := env.drop (env.length - outer.length)

end Env

section Eval

variable {σ : Type} (symbols : SymbolTable)

/-- The declaration that a use refers to. -/
def SymbolTable.resolve (use : NodeId) : Eval σ NodeId :=
  match symbols.get? use with
  | some d => return d
  | none => throw .stuck

/-- The declaration that an assignment is to. -/
def Expr.target : Expr → Eval σ NodeId
  | .var s _ => symbols.resolve s.id
  | _ => throw .stuck

/-- Reads a variable. -/
def Env.read (env : Env) (d : NodeId) : Eval σ Int64 :=
  match env.get? d with
  | some v => return v
  | none => throw .stuck

/-! ## Operators -/

/-- Divides. -/
def quotient (f : Int64 → Int64 → Int64) (v w : Int64) : Except MachineError Int64 :=
  if w = 0 then .error .divisionByZero
  else if v = Int64.minValue ∧ w = -1 then .error .divisionOverflow
  else .ok (f v w)

/-- A truth value as a word. -/
def truth (b : Bool) : Int64 := if b then 1 else 0

/-- The value of an operator. Sums, differences and products wrap around, quotients are rounded towards zero, and
a power is a product of as many factors as the exponent says, of none if it is negative. -/
def BinaryOp.value : BinaryOp → Int64 → Int64 → Except MachineError Int64
  | .assign, _, w => .ok w
  | .equal, v, w => .ok (truth (v == w))
  | .notEqual, v, w => .ok (truth (v != w))
  | .less, v, w => .ok (truth (v < w))
  | .lessEqual, v, w => .ok (truth (v ≤ w))
  | .greater, v, w => .ok (truth (w < v))
  | .greaterEqual, v, w => .ok (truth (w ≤ v))
  | .add, v, w => .ok (v + w)
  | .sub, v, w => .ok (v - w)
  | .mul, v, w => .ok (v * w)
  | .div, v, w => quotient (· / ·) v w
  | .mod, v, w => quotient (· % ·) v w
  | .pow, v, w => .ok (v ^ w.toInt.toNat)

/-! ## Expressions -/

section Expr

variable (call : String → List Int64 → Eval σ Int64)

mutual

/-- The value of an expression, and the variables behind it. The left operand comes first, an assignment
evaluates its right side only, and arguments are evaluated from the last to the first. -/
def Expr.eval : Expr → Env → Eval σ (Int64 × Env)
  | .int _ v, env => return (v, env)
  | .float .., _ | .string .., _ | .index .., _ => throw .stuck
  | .var s _, env => do
    let d ← symbols.resolve s.id
    let v ← env.read d
    return (v, env)
  | .unary _ .plus _ x, env => x.eval env
  | .unary _ .neg _ x, env => do
    let (v, env) ← x.eval env
    return (-v, env)
  | .binary _ op _ x y, env =>
    if op = .assign then do
      let (v, env) ← y.eval env
      let d ← x.target symbols
      return (v, env.set d v)
    else do
      let (v, env) ← x.eval env
      let (w, env) ← y.eval env
      let u ← (Eval.result (op.value v w) : Eval σ Int64)
      return (u, env)
  | .call _ f args, env => do
    let (vs, env) ← Expr.evalArgs args env
    let v ← call f.name vs
    return (v, env)

def Expr.evalArgs : List Expr → Env → Eval σ (List Int64 × Env)
  | [], env => return ([], env)
  | e :: es, env => do
    let (vs, env) ← Expr.evalArgs es env
    let (v, env) ← e.eval env
    return (v :: vs, env)

end

end Expr

/-! ## Statements -/

/-- How a statement ends. -/
inductive Completion
  /-- Control goes on behind it. -/
  | falls (env : Env)
  | returns (v : Int64)

/-- The variables of a block go when it ends. -/
def Eval.scope (x : Env → Eval σ Completion) (env : Env) : Eval σ Completion := do
  match ← x env with
  | .falls env' => return .falls (env.leave env')
  | .returns v => return .returns v

/-- Repeats a statement as long as a condition is one, for so many rounds. -/
def Eval.repeat (condition : Env → Eval σ (Int64 × Env)) (body : Env → Eval σ Completion) :
    Nat → Env → Eval σ Completion
  | 0, _ => throw .unfinished
  | n + 1, env => do
    let (v, env) ← condition env
    if v = 1 then
      match ← body env with
      | .falls env => Eval.repeat condition body n env
      | .returns v => return .returns v
    else return .falls env

section Stmt

variable (call : String → List Int64 → Eval σ Int64) (rounds : Nat)

mutual

/-- What a statement does to the variables. A condition holds if it is one. -/
def Stmt.eval : Stmt → Env → Eval σ Completion
  | .empty _, env => return .falls env
  | .ite _ c t none, env => do
    let (v, env) ← c.eval symbols call env
    if v = 1 then Eval.scope t.eval env else return .falls env
  | .ite _ c t (some e), env => do
    let (v, env) ← c.eval symbols call env
    if v = 1 then Eval.scope t.eval env else Eval.scope e.eval env
  | .loop _ c b, env => Eval.repeat (c.eval symbols call) (Eval.scope b.eval) rounds env
  | .ret _ none, _ | .decl _ none, _ | .array .., _ => throw .stuck
  | .ret _ (some e), env => do
    let (v, _) ← e.eval symbols call env
    return .returns v
  | .expr _ e, env => do
    let (_, env) ← e.eval symbols call env
    return .falls env
  | .decl b (some e), env => do
    let (v, env) ← e.eval symbols call env
    return .falls ((b.site.id, v) :: env)
  | .block _ body, env => Eval.scope (Stmt.evalAll body) env

def Stmt.evalAll : List Stmt → Env → Eval σ Completion
  | [], env => return .falls env
  | s :: ss, env => do
    match ← s.eval env with
    | .falls env => Stmt.evalAll ss env
    | .returns v => return .returns v

end

/-! ## Functions -/

/-- The parameters of a function with their values. -/
def Func.bind (f : Func) (args : List Int64) : Env := ((f.params.map (·.site.id)).zip args).reverse

/-- The value of a function. One that runs past its last statement returns zero. -/
def Func.eval (f : Func) (args : List Int64) : Eval σ Int64 := do
  match ← Stmt.evalAll symbols call rounds f.body (f.bind args) with
  | .falls _ => return 0
  | .returns v => return v

end Stmt

/-- Calls a function of a program, or one of the host, with so many rounds for each loop and so many calls inside one
another. -/
def Program.call [Host σ] (p : Program) (rounds : Nat) : Nat → String → List Int64 → Eval σ Int64
  | 0, _, _ => throw .unfinished
  | depth + 1, name, args =>
    match p.find? name with
    | some f => f.eval symbols (Program.call p rounds depth) rounds args
    | none =>
      match Intrinsic.ofName? name with
      | some i => fun host =>
        let (res, host) := i.call args host
        Eval.result res host
      | none => throw .stuck

/-- A call comes to a value or an error, within some bounds. -/
def Program.Evaluates [Host σ] (p : Program) (name : String) (args : List Int64) (host : σ)
    (res : Except MachineError Int64) (host' : σ) : Prop :=
  ∃ rounds depth, p.call symbols rounds depth name args host = Eval.result res host'

end Eval

end MicroC
