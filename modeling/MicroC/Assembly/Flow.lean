import MicroC.Assembly.Convention
import MicroC.Assembly.Module

/-!
# What instructions read and write

Facts about operands as they are written, and the registers that an instruction reads and writes.
They are what the reductions go by.
-/

namespace MicroC

namespace Operand

/-- `%reg` -/
def isRegister (o : String) : Bool :=
  match o.toList with
  | '%' :: cs => cs.all (· != '(')
  | _ => false

/-- `disp(%reg)` -/
def isMemory (o : String) : Bool := o.toList.any (· == '(')

/-- The value of an immediate operand. -/
def immediate? (o : String) : Option Int64 :=
  match o.toList with
  | '$' :: cs => (Decimal.int? cs).bind Decimal.word?
  | _ => none

/-- Whether a word can be an immediate of an arithmetic instruction: it is the sign extension of 32
bits. -/
def fitsImmediate (w : Int64) : Bool :=
  Int32.minValue.toInt ≤ w.toInt && w.toInt ≤ Int32.maxValue.toInt

/-- The names of registers in a text: each percent sign with the letters and digits behind it. -/
def registersIn : List Char → List String
  | [] => []
  | c :: cs =>
    if c = '%' then String.ofList ('%' :: cs.takeWhile Char.isAlphanum) :: registersIn cs
    else registersIn cs

/-- The registers that an operand names, address registers among them. -/
def registers (o : String) : List String := registersIn o.toList

end Operand

namespace Instruction

open Operand Convention

/-- The registers whose values the instruction reads. -/
def reads (i : Instruction) : List String :=
  let src := i.operand 0
  let dst := i.operand 1
  match i.opcode with
  | .pushq => registers src ++ [stackPointer]
  | .popq => stackPointer :: if isMemory src then registers src else []
  | .movq => registers src ++ if isMemory dst then registers dst else []
  | .addq | .subq | .imulq | .cmpq
  | .cmove | .cmovne | .cmovl | .cmovle | .cmovg | .cmovge => registers src ++ registers dst
  | .negq => registers src
  | .idivq => registers src ++ ["%rax", "%rdx"]
  | .cqto => ["%rax"]
  | .call => argumentRegisters ++ [stackPointer]
  | .retq => [returnRegister, stackPointer]
  | .jmp | .je | .jne | .jle | .nop => []

/-- The registers that the instruction overwrites. -/
def writes (i : Instruction) : List String :=
  let src := i.operand 0
  let dst := i.operand 1
  match i.opcode with
  | .pushq => [stackPointer]
  | .popq => stackPointer :: if isRegister src then [src] else []
  | .movq | .addq | .subq | .imulq
  | .cmove | .cmovne | .cmovl | .cmovle | .cmovg | .cmovge => if isRegister dst then [dst] else []
  | .negq => if isRegister src then [src] else []
  | .idivq => ["%rax", "%rdx"]
  | .cqto => ["%rdx"]
  | .call => callerSaved ++ [stackPointer]
  | .retq => [stackPointer]
  | .cmpq | .jmp | .je | .jne | .jle | .nop => []

/-- Whether the instruction stores to an operand in memory. What `pushq` and `call` put on the stack
does not count. -/
def writesMemory (i : Instruction) : Bool :=
  match i.opcode with
  | .popq | .negq => isMemory (i.operand 0)
  | .movq | .addq | .subq | .imulq => isMemory (i.operand 1)
  | _ => false

/-- Whether an operand names a register. -/
def mentions (i : Instruction) (register : String) : Bool :=
  i.operands.any fun o => (registers o).contains register

end Instruction

end MicroC
