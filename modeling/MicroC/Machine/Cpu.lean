import MicroC.Assembly.Convention
import MicroC.Machine.Error
import MicroC.Machine.Register

/-!
# The processor

Registers, a stack of words, and the operands of the last comparison. Addresses are those of the
simulated stack; an access must hit one of its words.

* `slot?`: the word at an address.
* `Act`: an action of the processor, which may fail.
* `execute`: the instructions that neither jump, call nor return.
-/

namespace MicroC

/-! ## The stack -/

/-- The address above the first word of the stack, where the stack pointer starts. -/
def stackTop : Nat := 0x7fff0000

/-- The number of words of the stack. -/
def stackWords : Nat := 131072

/-- The address of the last word of the stack. -/
def stackBottom : Nat := stackTop - stackWords * Convention.wordSize

/-- The words of the stack, the highest first. -/
abbrev Stack := Vector Int64 stackWords

/-- The word at an address, counted from the top. -/
def slot? (address : Nat) : Option (Fin stackWords) :=
  if h : stackBottom ≤ address ∧ address < stackTop ∧ address % Convention.wordSize = 0 then
    some ⟨(stackTop - address) / Convention.wordSize - 1, by
      simp only [stackBottom, stackTop, stackWords, Convention.wordSize] at *
      omega⟩
  else none

/-! ## Processor states -/

/-- The state of the processor. -/
structure Cpu where
  registers : Registers
  stack : Stack
  /-- Destination and source of the last comparison. -/
  flags : Option (Int64 × Int64)
  /-- The return addresses of the calls in progress, the latest first. -/
  returns : List Int64

namespace Cpu

/-- The value of a register. -/
def get (c : Cpu) (r : Register) : Int64 := c.registers.get r

/-- Gives a register a value. -/
def set (c : Cpu) (r : Register) (w : Int64) : Cpu := { c with registers := c.registers.set r w }

/-- The stack pointer as an address. -/
def rsp (c : Cpu) : Nat := (c.get .rsp).toUInt64.toNat

/-- A processor at the start of a run: all registers are zero but the stack pointer. -/
def start (stack : Stack) : Cpu where
  registers := Registers.zero.set .rsp (Int64.ofNat stackTop)
  stack
  flags := none
  returns := []

/-- The word at an address. -/
def load (c : Cpu) (address : Nat) : Except MachineError Int64 :=
  match slot? address with
  | some i => .ok c.stack[i]
  | none => .error (.invalidAddress address)

end Cpu

/-- An action of the processor. A failed one leaves the state it reached. -/
abbrev Act := EStateM MachineError Cpu

/-! ## Operands -/

/-- The operand of an instruction that works on data. -/
inductive Arg
  | immediate (value : Int64)
  | register (r : Register)
  | memory (displacement : Int64) (base : Register)
deriving DecidableEq, Repr

namespace Act

open Convention

/-- The value of a register. -/
def get (r : Register) : Act Int64 := fun c => .ok (c.get r) c

/-- Gives a register a value. -/
def set (r : Register) (w : Int64) : Act Unit := fun c => .ok () (c.set r w)

/-- Reads the word at an address. -/
def load (address : Nat) : Act Int64 := fun c =>
  match slot? address with
  | some i => .ok c.stack[i] c
  | none => .error (.invalidAddress address) c

/-- Writes the word at an address. -/
def store (address : Nat) (w : Int64) : Act Unit := fun c =>
  match slot? address with
  | some i => .ok () { c with stack := c.stack.set i w }
  | none => .error (.invalidAddress address) c

/-- Puts a word on the stack. -/
def push (w : Int64) : Act Unit := do
  let rsp := (← get .rsp) - Int64.ofNat wordSize
  let address := rsp.toUInt64.toNat
  if address < stackBottom then throw .stackOverflow
  store address w
  set .rsp rsp

/-- Takes a word off the stack. -/
def pop : Act Int64 := do
  let rsp ← get .rsp
  let w ← load rsp.toUInt64.toNat
  set .rsp (rsp + Int64.ofNat wordSize)
  return w

/-- The address of a memory operand. -/
def address (displacement : Int64) (base : Register) : Act Nat := do
  return ((← get base) + displacement).toUInt64.toNat

/-- The value of an operand. -/
def read : Arg → Act Int64
  | .immediate w => pure w
  | .register r => get r
  | .memory d b => do load (← address d b)

/-- Writes to an operand. An immediate cannot be written to. -/
def write (opcode : Opcode) (arg : Arg) (w : Int64) : Act Unit :=
  match arg with
  | .immediate v => throw (.invalidOperand opcode s!"Immediate({wordText v})")
  | .register r => set r w
  | .memory d b => do store (← address d b) w

/-- Operand `n` of an instruction. -/
def operand (opcode : Opcode) (args : List Arg) (n : Nat) : Act Arg :=
  match args[n]? with
  | some a => pure a
  | none => throw (.invalidOperand opcode "")

/-! ## Instructions -/

/-- Whether the condition of an opcode holds after a comparison of `dst` with `src`. -/
def holds (opcode : Opcode) (dst src : Int64) : Bool :=
  match opcode with
  | .cmove | .je => dst == src
  | .cmovne | .jne => dst != src
  | .cmovl => dst < src
  | .cmovle | .jle => dst ≤ src
  | .cmovg => src < dst
  | .cmovge => src ≤ dst
  | _ => true

/-- Whether the condition of an opcode holds. -/
def condition (opcode : Opcode) : Act Bool := fun c =>
  match c.flags with
  | some (dst, src) => .ok (holds opcode dst src) c
  | none => .error (.flagsUnset opcode) c

/-- Reads the source and the destination, and writes the result to the destination. -/
def combine (opcode : Opcode) (args : List Arg) (f : Int64 → Int64 → Int64) : Act Unit := do
  let src ← read (← operand opcode args 0)
  let dst ← operand opcode args 1
  write opcode dst (f (← read dst) src)

/-- Divides the 128-bit value of `%rdx` and `%rax`, toward zero. -/
def divide (divisor : Int64) : Act Unit := do
  if divisor = 0 then throw .divisionByZero
  let high ← get .rdx
  let low ← get .rax
  if high = Int64.minValue ∧ low = 0 ∧ divisor = -1 then throw .divisionTrap
  let dividend := high.toInt * UInt64.size + low.toUInt64.toNat
  match Decimal.word? (dividend.tdiv divisor.toInt) with
  | none => throw .divisionOverflow
  | some quotient =>
    set .rax quotient
    set .rdx (Int64.ofInt (dividend.tmod divisor.toInt))

/-- Executes an instruction that neither jumps, calls nor returns. -/
def execute (opcode : Opcode) (args : List Arg) : Act Unit :=
  match opcode with
  | .pushq => do push (← read (← operand opcode args 0))
  | .popq => do
    let w ← pop
    write opcode (← operand opcode args 0) w
  | .movq => do
    let w ← read (← operand opcode args 0)
    write opcode (← operand opcode args 1) w
  | .addq => combine opcode args (· + ·)
  | .subq => combine opcode args (· - ·)
  | .imulq => combine opcode args (· * ·)
  | .negq => do
    let dst ← operand opcode args 0
    write opcode dst (-(← read dst))
  | .cqto => do set .rdx (if (← get .rax) < 0 then -1 else 0)
  | .idivq => do divide (← read (← operand opcode args 0))
  | .cmpq => do
    let src ← read (← operand opcode args 0)
    let dst ← read (← operand opcode args 1)
    modify fun c => { c with flags := some (dst, src) }
  | .cmove | .cmovne | .cmovl | .cmovle | .cmovg | .cmovge => do
    if ← condition opcode then
      let w ← read (← operand opcode args 0)
      write opcode (← operand opcode args 1) w
  | .jmp | .je | .jne | .jle | .call | .retq | .nop => pure ()

end Act

end MicroC
