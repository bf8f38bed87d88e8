import MicroC.Emission.Expr

/-!
# Code for statements and functions

The code of a statement leaves the stack as deep as it was, up to the variables it declares. A block
gives up the words of its variables when it ends.

A function is a block with its name, the blocks of its control flow, and one block with its exit, to
which every `return` jumps. A function that runs past its last statement returns zero.

* `Emit.stmt`: the code of a statement.
* `generate`: the module of a program.
-/

namespace MicroC

namespace Emit

open Convention

/-! ## Statements -/

/-- Pops the condition and goes to `target` unless it is one. -/
def branchUnlessTrue (target : String) : Emit Unit := do
  pop returnRegister "Pop condition"
  instruction .cmpq ["$1", returnRegister] "Test condition"
  instruction .jne [target] "Skip when false"

/-- A condition must be of type `int`. -/
def expectCondition (a : Analysis) (c : Expr) : Emit Unit := do
  match ← typeOf a c.id with
  | .scalar .int => return
  | ty => unsupported (.conditions ty) c.span

/-- Makes room for a variable. Its initial value becomes its word; without one it takes the word of
padding or a new one. -/
def reserve (a : Analysis) (b : Binder) : Option Expr → Emit Unit
  | some e => do
    if (← frame).padded then
      shrinkStack 1 "Reclaim frame padding"
      modifyFrame (·.setPadded false)
    expr a e
    modifyFrame (·.popTemps 1)
  | none => do
    if (← frame).padded then modifyFrame (·.setPadded false)
    else growStack s!"Allocate variable '{b.name.name}'"

/-- Declares a variable. -/
def declare (a : Analysis) (b : Binder) (init : Option Expr) : Emit Unit := do
  expectInt a b .variables
  reserve a b init
  modifyFrame (·.declare b.site.id)
  alignFrame

mutual

/-- The code of a statement in a function with the given exit. -/
def stmt (a : Analysis) (exit : String) : Stmt → Emit Unit
  | .empty _ => pure ()
  | .ite _ c t none => do
    expectCondition a c
    expr a c
    let thenLabel ← freshLabel "then"
    let endLabel ← freshLabel "endif"
    branchUnlessTrue endLabel
    label thenLabel "Then branch"
    scope (stmt a exit t)
    label endLabel "End of if statement"
  | .ite _ c t (some e) => do
    expectCondition a c
    expr a c
    let thenLabel ← freshLabel "then"
    let elseLabel ← freshLabel "else"
    let endLabel ← freshLabel "endif"
    branchUnlessTrue elseLabel
    label thenLabel "Then branch"
    scope (stmt a exit t)
    instruction .jmp [endLabel] "Skip else branch"
    label elseLabel "Else branch"
    scope (stmt a exit e)
    label endLabel "End of if statement"
  | .loop _ c b => do
    expectCondition a c
    let condLabel ← freshLabel "while_cond"
    let bodyLabel ← freshLabel "while_body"
    let endLabel ← freshLabel "while_end"
    label condLabel "Loop condition"
    expr a c
    branchUnlessTrue endLabel
    label bodyLabel "Loop body"
    scope (stmt a exit b)
    instruction .jmp [condLabel] "Re-test loop condition"
    label endLabel "End of loop"
  | .ret _ none => instruction .jmp [exit] "Jump to function exit"
  | .ret _ (some e) => do
    expr a e
    pop returnRegister "Pop return value"
    instruction .jmp [exit] "Jump to function exit"
  | .expr _ e => do
    expr a e
    pop returnRegister "Discard expression value"
  | .decl b init => declare a b init
  | .array b _ => unsupported .arrayDeclarations b.site.span
  | .block _ body => scope (stmts a exit body)

/-- The code of statements one after the other. -/
def stmts (a : Analysis) (exit : String) : List Stmt → Emit Unit
  | [] => pure ()
  | s :: ss => do
    stmt a exit s
    stmts a exit ss

end

/-! ## Functions -/

/-- Saves registers. -/
def saveRegisters : List String → Emit Unit
  | [] => pure ()
  | r :: rs => do
    instruction .pushq [r] "Save callee-saved register"
    saveRegisters rs

/-- Restores registers. -/
def restoreRegisters : List String → Emit Unit
  | [] => pure ()
  | r :: rs => do
    instruction .popq [r] "Restore callee-saved register"
    restoreRegisters rs

/-- Copies parameters from number `n` on into the frame. -/
def spillParameters (a : Analysis) (n : Nat) : List Binder → Emit Unit
  | [] => pure ()
  | b :: bs => do
    expectInt a b .parameters
    instruction .pushq [parameterLocation n] s!"Spill parameter '{b.name.name}'"
    modifyFrame (·.declare b.site.id)
    spillParameters a (n + 1) bs

/-- The label of a function's exit. -/
def exitLabel (name : String) : String := s!".{name}.exit"

/-- The code of a function. -/
def function (a : Analysis) (f : Func) : Emit Unit := do
  let name := f.name.name
  modifyFrame fun _ => {}
  label name s!"Entry point of function '{name}'" true
  saveRegisters calleeSaved.reverse
  instruction .pushq [framePointer] "Save caller frame pointer"
  instruction .movq [stackPointer, framePointer] "Set up frame pointer"
  spillParameters a 0 f.params
  alignFrame
  scope (stmts a (exitLabel name) f.body)
  instruction .movq ["$0", returnRegister] "Implicit return value"
  label (exitLabel name) s!"Exit point of function '{name}'"
  instruction .movq [framePointer, stackPointer] "Discard frame"
  instruction .popq [framePointer] "Restore caller frame pointer"
  restoreRegisters calleeSaved
  instruction .retq [] "Return to caller"

/-- The code of functions one after the other. -/
def functions (a : Analysis) : List Func → Emit Unit
  | [] => pure ()
  | f :: fs => do
    function a f
    functions a fs

end Emit

/-- The module of a program. -/
def generate (a : Analysis) (p : Program) : Except EmissionError Module :=
  match Emit.functions a p.functions {} with
  | .ok out => .ok (.ofLines out.lines)
  | .error e => .error e

end MicroC
