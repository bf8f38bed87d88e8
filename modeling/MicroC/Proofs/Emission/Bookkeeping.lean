import MicroC.Emission.Program
import MicroC.Proofs.Emission.Ledger

/-!
# Emission with a ledger

The emission of code once more, with a ledger in place of the frame. Every change of the ledger is a move, and the
moves that were made stay on record, also when the emission fails on the way.

* `Desk`: a book, the moves made so far, the labels in use and the lines emitted.
* `Keeping`: an emission at a desk, with its `Monad` instance.
* `Keeping.expr`, `Keeping.stmt`, `Keeping.function`: the code of expressions, statements and functions.
-/

namespace MicroC

/-- What there is while code is emitted. -/
structure Desk where
  book : Book := {}
  /-- The moves, in the order in which they were made. -/
  made : List Move := []
  /-- How many labels are in use. -/
  labels : Nat := 0
  lines : List Line := []

/-- An emission at a desk, which is left behind also when the emission fails. -/
def Keeping (α : Type) : Type := Desk → Except EmissionError α × Desk

namespace Keeping

variable {α β : Type}

protected def pure (a : α) : Keeping α := fun d => (.ok a, d)

/-- Goes on at the desk that was left behind, unless the emission failed. -/
protected def bind (x : Keeping α) (f : α → Keeping β) : Keeping β := fun d =>
  match x d with
  | (.error e, d') => (.error e, d')
  | (.ok a, d') => f a d'

instance : Monad Keeping where
  pure := Keeping.pure
  bind := Keeping.bind

def fail (fault : EmissionFault) (span : Option Span) : Keeping α := fun d => (.error ⟨fault, span⟩, d)

def ledger : Keeping Ledger := fun d => (.ok d.book.ledger, d)

def move (m : Move) : Keeping Unit := fun d => (.ok (), { d with book := d.book.move m, made := d.made ++ [m] })

/-- An emission that has nothing to do with the frame. -/
def quiet (x : Emit α) : Keeping α := fun d =>
  match x ⟨d.book.ledger.frame, d.labels⟩ with
  | .error e => (.error e, d)
  | .ok out => (.ok out.value, { d with labels := out.layout.labels, lines := d.lines ++ out.lines })

open Convention

/-! ## Words on the stack -/

def push (operand comment : String) : Keeping Unit := do
  quiet (Emit.instruction .pushq [operand] comment)
  move (.push 1)

def pop (register comment : String) : Keeping Unit := do
  quiet (Emit.instruction .popq [register] comment)
  move (.pop 1)

/-- Pads the frame if its variables leave the stack out of alignment. -/
def alignFrame : Keeping Unit := do
  if (← ledger).isAligned then return
  quiet (Emit.growStack "Pad frame to 16 bytes")
  move (.pad true)

/-- Goes back to where it was entered, and gives up the words of the variables that `body` declared. -/
def scope (body : Keeping Unit) : Keeping Unit := do
  let mark := (← ledger).mark
  move .mark
  body
  let words := (← ledger).releasedWords mark
  move (.release mark)
  quiet (Emit.shrinkStack words "Release block locals")

def slotOf (a : Analysis) (use : NodeId) (n : Ident) : Keeping String := do
  match a.symbols.get? use with
  | none => fail (.missingEntry .symbol use) none
  | some d =>
    match (← ledger).slots d with
    | none => fail (.unallocatedVariable n.name) (some n.span)
    | some offset => return memoryOperand offset framePointer

/-! ## Expressions -/

def intLiteral (value : Int64) : Keeping Unit := do
  let operand := immediateOperand value.toInt
  if Operand.fitsImmediate value then push operand "Push integer literal"
  else
    quiet (Emit.instruction .movq [operand, returnRegister] "Load wide integer literal")
    push returnRegister "Push integer literal"

def arithmetic (opcode : Opcode) (op : BinaryOp) : Keeping Unit := do
  pop "%r13" "Pop right operand"
  pop "%r15" "Pop left operand"
  quiet (Emit.instruction opcode ["%r13", "%r15"] s!"Compute '{op.text}'")
  push "%r15" "Push result"

def division (result : String) (op : BinaryOp) : Keeping Unit := do
  pop "%r13" "Pop divisor"
  pop returnRegister "Pop dividend"
  quiet (Emit.instruction .cqto [] "Sign-extend dividend into %rdx")
  quiet (Emit.instruction .idivq ["%r13"] s!"Compute '{op.text}'")
  push result "Push result"

def comparison (op : BinaryOp) : Keeping Unit := do
  pop returnRegister "Pop right operand"
  pop "%r15" "Pop left operand"
  quiet (Emit.instruction .movq ["$0", "%r12"] "Assume false")
  quiet (Emit.instruction .movq ["$1", "%r13"] "")
  quiet (Emit.instruction .cmpq [returnRegister, "%r15"] s!"Compare '{op.text}'")
  quiet (Emit.instruction (Emit.comparisonMove op) ["%r13", "%r12"] "Select true when the comparison holds")
  push "%r12" "Push truth value"

def power : Keeping Unit := do
  let again ← quiet (Emit.freshLabel "pow_loop")
  let done ← quiet (Emit.freshLabel "pow_end")
  pop "%rcx" "Pop exponent"
  pop "%rbx" "Pop base"
  quiet (Emit.instruction .movq ["$1", returnRegister] "Start from 1")
  quiet (Emit.label again "Power loop")
  quiet (Emit.instruction .cmpq ["$0", "%rcx"] "")
  quiet (Emit.instruction .jle [done] "Exponent exhausted")
  quiet (Emit.instruction .imulq ["%rbx", returnRegister] "")
  quiet (Emit.instruction .subq ["$1", "%rcx"] "")
  quiet (Emit.instruction .jmp [again] "")
  quiet (Emit.label done "End of power loop")
  push returnRegister "Push result"

/-- The code of a binary operator behind that of its operands. -/
def operator (op : BinaryOp) : Keeping Unit :=
  match op with
  | .add => arithmetic .addq op
  | .sub => arithmetic .subq op
  | .mul => arithmetic .imulq op
  | .div => division returnRegister op
  | .mod => division "%rdx" op
  | .pow => power
  | op => comparison op

def sign : UnaryOp → Keeping Unit
  | .plus => pure ()
  | .neg => do
    pop returnRegister "Pop operand"
    quiet (Emit.instruction .negq [returnRegister] "Negate")
    push returnRegister "Push result"

def popArguments : List String → Keeping Unit
  | [] => pure ()
  | r :: rs => do
    pop r "Pop argument into register"
    popArguments rs

/-- The code of a call around that of its arguments. -/
def call (name : String) (arity : Nat) (arguments : Keeping Unit) : Keeping Unit := do
  let onStack := stackArguments arity
  let padding := ((← ledger).depth + onStack) % 2
  if padding = 1 then
    quiet (Emit.growStack "Align stack for call")
    move (.push 1)
  arguments
  popArguments (argumentRegisters.take arity)
  quiet (Emit.instruction .call [name] s!"Call '{name}'")
  quiet (Emit.shrinkStack (onStack + padding) "Drop stack arguments")
  move (.pop (onStack + padding))
  push returnRegister "Push return value"

mutual

def expr (a : Analysis) : Expr → Keeping Unit
  | .float site _ => fail (.unsupported .floatLiterals) (some site.span)
  | .string site _ => fail (.unsupported .stringLiterals) (some site.span)
  | .index site _ _ => fail (.unsupported .arrayReferences) (some site.span)
  | e@(.int _ v) => do
    quiet (Emit.expectValue a e)
    intLiteral v
  | e@(.var site n) => do
    quiet (Emit.expectValue a e)
    push (← slotOf a site.id n) "Push variable value"
  | e@(.unary _ op _ x) => do
    quiet (Emit.expectValue a e)
    expr a x
    sign op
  | e@(.binary _ op _ x y) => do
    quiet (Emit.expectValue a e)
    if op = .assign then
      match x with
      | .var site n =>
        let slot ← slotOf a site.id n
        expr a y
        quiet (Emit.store slot n)
      | _ => fail .invalidAssignmentTarget (some x.span)
    else
      expr a x
      expr a y
      operator op
  | e@(.call site n args) => do
    quiet (Emit.expectValue a e)
    if a.functions.contains n.name then call n.name args.length (arguments a args)
    else fail (.missingEntry .function site.id) none

/-- The code of arguments, from the last to the first. -/
def arguments (a : Analysis) : List Expr → Keeping Unit
  | [] => pure ()
  | e :: es => do
    arguments a es
    expr a e

end

/-! ## Statements -/

/-- Pops the condition and goes to `target` unless it is one. -/
def branchUnlessTrue (target : String) : Keeping Unit := do
  pop returnRegister "Pop condition"
  quiet (Emit.instruction .cmpq ["$1", returnRegister] "Test condition")
  quiet (Emit.instruction .jne [target] "Skip when false")

def reserve (a : Analysis) (b : Binder) : Option Expr → Keeping Unit
  | some e => do
    if (← ledger).padded then
      quiet (Emit.shrinkStack 1 "Reclaim frame padding")
      move (.pad false)
    expr a e
    move (.pop 1)
  | none => do
    if (← ledger).padded then move (.pad false)
    else quiet (Emit.growStack s!"Allocate variable '{b.name.name}'")

def declare (a : Analysis) (b : Binder) (init : Option Expr) : Keeping Unit := do
  quiet (Emit.expectInt a b .variables)
  reserve a b init
  move (.declare b.site.id)
  alignFrame

/-- Pauses in front of a statement and behind it. -/
def between (x : Keeping Unit) : Keeping Unit := do
  move .pause
  x
  move .pause

mutual

/-- The code of a statement in a function with the given exit. -/
def stmt (a : Analysis) (exit : String) : Stmt → Keeping Unit
  | .empty _ => between (pure ())
  | .ite _ c t none => between do
    quiet (Emit.expectCondition a c)
    expr a c
    let thenLabel ← quiet (Emit.freshLabel "then")
    let endLabel ← quiet (Emit.freshLabel "endif")
    branchUnlessTrue endLabel
    quiet (Emit.label thenLabel "Then branch")
    scope (stmt a exit t)
    quiet (Emit.label endLabel "End of if statement")
  | .ite _ c t (some e) => between do
    quiet (Emit.expectCondition a c)
    expr a c
    let thenLabel ← quiet (Emit.freshLabel "then")
    let elseLabel ← quiet (Emit.freshLabel "else")
    let endLabel ← quiet (Emit.freshLabel "endif")
    branchUnlessTrue elseLabel
    quiet (Emit.label thenLabel "Then branch")
    scope (stmt a exit t)
    quiet (Emit.instruction .jmp [endLabel] "Skip else branch")
    quiet (Emit.label elseLabel "Else branch")
    scope (stmt a exit e)
    quiet (Emit.label endLabel "End of if statement")
  | .loop _ c b => between do
    quiet (Emit.expectCondition a c)
    let condLabel ← quiet (Emit.freshLabel "while_cond")
    let bodyLabel ← quiet (Emit.freshLabel "while_body")
    let endLabel ← quiet (Emit.freshLabel "while_end")
    quiet (Emit.label condLabel "Loop condition")
    expr a c
    branchUnlessTrue endLabel
    quiet (Emit.label bodyLabel "Loop body")
    scope (stmt a exit b)
    quiet (Emit.instruction .jmp [condLabel] "Re-test loop condition")
    quiet (Emit.label endLabel "End of loop")
  | .ret _ none => between (quiet (Emit.instruction .jmp [exit] "Jump to function exit"))
  | .ret _ (some e) => between do
    expr a e
    pop returnRegister "Pop return value"
    quiet (Emit.instruction .jmp [exit] "Jump to function exit")
  | .expr _ e => between do
    expr a e
    pop returnRegister "Discard expression value"
  | .decl b init => between (declare a b init)
  | .array b _ => between (fail (.unsupported .arrayDeclarations) (some b.site.span))
  | .block _ body => between (scope (stmts a exit body))

def stmts (a : Analysis) (exit : String) : List Stmt → Keeping Unit
  | [] => pure ()
  | s :: ss => do
    stmt a exit s
    stmts a exit ss

end

/-! ## Functions -/

/-- Copies parameters from number `n` on into the frame. -/
def spillParameters (a : Analysis) (n : Nat) : List Binder → Keeping Unit
  | [] => pure ()
  | b :: bs => do
    quiet (Emit.expectInt a b .parameters)
    quiet (Emit.instruction .pushq [parameterLocation n] s!"Spill parameter '{b.name.name}'")
    move (.declare b.site.id)
    spillParameters a (n + 1) bs

/-- The code of a function, at an empty desk. -/
def function (a : Analysis) (f : Func) : Keeping Unit := do
  let name := f.name.name
  quiet (Emit.label name s!"Entry point of function '{name}'" true)
  quiet (Emit.saveRegisters calleeSaved.reverse)
  quiet (Emit.instruction .pushq [framePointer] "Save caller frame pointer")
  quiet (Emit.instruction .movq [stackPointer, framePointer] "Set up frame pointer")
  spillParameters a 0 f.params
  alignFrame
  scope (stmts a (Emit.exitLabel name) f.body)
  quiet (Emit.instruction .movq ["$0", returnRegister] "Implicit return value")
  quiet (Emit.label (Emit.exitLabel name) s!"Exit point of function '{name}'")
  quiet (Emit.instruction .movq [framePointer, stackPointer] "Discard frame")
  quiet (Emit.instruction .popq [framePointer] "Restore caller frame pointer")
  quiet (Emit.restoreRegisters calleeSaved)
  quiet (Emit.instruction .retq [] "Return to caller")

end Keeping

end MicroC
