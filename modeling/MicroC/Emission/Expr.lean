import MicroC.Emission.Basic

/-!
# Code for expressions

The code of an expression leaves one word on the stack, its value, and all else below the frame
pointer as it was, up to assigned variables. Operators pop their operands into fixed registers; the
right operand is on top.

* `Emit.expr`: the code of an expression.
* `Emit.call`: the code of a call; arguments are computed from the last to the first.
-/

namespace MicroC.Emit

open Convention

/-- The conditional move that picks the truth value of a comparison. -/
def comparisonMove : BinaryOp → Opcode
  | .equal => .cmove
  | .notEqual => .cmovne
  | .less => .cmovl
  | .lessEqual => .cmovle
  | .greater => .cmovg
  | _ => .cmovge

/-- Pushes a literal. One that is too wide for an immediate goes through a register. -/
def intLiteral (value : Int64) : Emit Unit := do
  let operand := immediateOperand value.toInt
  if Operand.fitsImmediate value then push operand "Push integer literal"
  else
    instruction .movq [operand, returnRegister] "Load wide integer literal"
    push returnRegister "Push integer literal"

/-- Adds, subtracts or multiplies. -/
def arithmetic (opcode : Opcode) (op : BinaryOp) : Emit Unit := do
  pop "%r13" "Pop right operand"
  pop "%r15" "Pop left operand"
  instruction opcode ["%r13", "%r15"] s!"Compute '{op.text}'"
  push "%r15" "Push result"

/-- Divides; the quotient and the remainder are in different registers. -/
def division (result : String) (op : BinaryOp) : Emit Unit := do
  pop "%r13" "Pop divisor"
  pop returnRegister "Pop dividend"
  instruction .cqto [] "Sign-extend dividend into %rdx"
  instruction .idivq ["%r13"] s!"Compute '{op.text}'"
  push result "Push result"

/-- Compares. -/
def comparison (op : BinaryOp) : Emit Unit := do
  pop returnRegister "Pop right operand"
  pop "%r15" "Pop left operand"
  instruction .movq ["$0", "%r12"] "Assume false"
  instruction .movq ["$1", "%r13"] ""
  instruction .cmpq [returnRegister, "%r15"] s!"Compare '{op.text}'"
  instruction (comparisonMove op) ["%r13", "%r12"] "Select true when the comparison holds"
  push "%r12" "Push truth value"

/-- Raises to a power by repeated multiplication; an exponent below one gives one. -/
def power : Emit Unit := do
  let again ← freshLabel "pow_loop"
  let done ← freshLabel "pow_end"
  pop "%rcx" "Pop exponent"
  pop "%rbx" "Pop base"
  instruction .movq ["$1", returnRegister] "Start from 1"
  label again "Power loop"
  instruction .cmpq ["$0", "%rcx"] ""
  instruction .jle [done] "Exponent exhausted"
  instruction .imulq ["%rbx", returnRegister] ""
  instruction .subq ["$1", "%rcx"] ""
  instruction .jmp [again] ""
  label done "End of power loop"
  push returnRegister "Push result"

/-- The code of a binary operator behind that of its operands. -/
def operator (op : BinaryOp) : Emit Unit :=
  match op with
  | .add => arithmetic .addq op
  | .sub => arithmetic .subq op
  | .mul => arithmetic .imulq op
  | .div => division returnRegister op
  | .mod => division "%rdx" op
  | .pow => power
  | op => comparison op

/-- The code of a sign behind that of its operand. -/
def sign : UnaryOp → Emit Unit
  | .plus => pure ()
  | .neg => do
    pop returnRegister "Pop operand"
    instruction .negq [returnRegister] "Negate"
    push returnRegister "Push result"

/-- Stores the value on the stack in a variable and leaves it there. -/
def store (slot : String) (n : Ident) : Emit Unit := do
  instruction .movq ["(%rsp)", returnRegister] "Peek assigned value"
  instruction .movq [returnRegister, slot] s!"Store into '{n.name}'"

/-- Pops arguments into their registers. -/
def popArguments : List String → Emit Unit
  | [] => pure ()
  | r :: rs => do
    pop r "Pop argument into register"
    popArguments rs

/-- The code of a call around that of its arguments. The stack is aligned once the arguments that
stay on it are in place. -/
def call (name : String) (arity : Nat) (arguments : Emit Unit) : Emit Unit := do
  let onStack := stackArguments arity
  let padding := ((← frame).depth + onStack) % 2
  if padding = 1 then
    growStack "Align stack for call"
    modifyFrame (·.pushTemps 1)
  arguments
  popArguments (argumentRegisters.take arity)
  instruction .call [name] s!"Call '{name}'"
  shrinkStack (onStack + padding) "Drop stack arguments"
  modifyFrame (·.popTemps (onStack + padding))
  push returnRegister "Push return value"

/-- Only integers have values, and calls without a result. -/
def expectValue (a : Analysis) (e : Expr) : Emit Unit := do
  match ← typeOf a e.id with
  | .scalar .int | .scalar .void => return
  | ty => unsupported (.values ty) e.span

mutual

/-- The code of an expression. -/
def expr (a : Analysis) : Expr → Emit Unit
  | .float site _ => unsupported .floatLiterals site.span
  | .string site _ => unsupported .stringLiterals site.span
  | .index site _ _ => unsupported .arrayReferences site.span
  | e@(.int _ v) => do
    expectValue a e
    intLiteral v
  | e@(.var site n) => do
    expectValue a e
    push (← slotOf a site.id n) "Push variable value"
  | e@(.unary _ op _ x) => do
    expectValue a e
    expr a x
    sign op
  | e@(.binary _ op _ x y) => do
    expectValue a e
    if op = .assign then
      match x with
      | .var site n =>
        let slot ← slotOf a site.id n
        expr a y
        store slot n
      | _ => fail .invalidAssignmentTarget (some x.span)
    else
      expr a x
      expr a y
      operator op
  | e@(.call site n args) => do
    expectValue a e
    if a.functions.contains n.name then call n.name args.length (arguments a args)
    else fail (.missingEntry .function site.id) none

/-- The code of arguments, from the last to the first. -/
def arguments (a : Analysis) : List Expr → Emit Unit
  | [] => pure ()
  | e :: es => do
    arguments a es
    expr a e

end

end MicroC.Emit
