import MicroC.Decimal.Integer

/-!
# The calling convention

How generated functions call each other and the runtime: six arguments in registers, the others on
the stack, which is aligned to sixteen bytes at every call.
-/

namespace MicroC.Convention

/-- The size of a word in bytes. -/
def wordSize : Nat := 8

/-- The alignment of the stack at a call, in bytes. -/
def stackAlignment : Nat := 16

/-- Carries the result of a call. -/
def returnRegister : String := "%rax"

def stackPointer : String := "%rsp"

def framePointer : String := "%rbp"

/-- Carry the first arguments of a call, in order. -/
def argumentRegisters : List String := ["%rdi", "%rsi", "%rdx", "%rcx", "%r8", "%r9"]

/-- Keep their values over a call. -/
def calleeSaved : List String := ["%rbx", "%rbp", "%r12", "%r13", "%r14", "%r15"]

/-- May have any value after a call. -/
def callerSaved : List String :=
  ["%rax", "%rcx", "%rdx", "%rsi", "%rdi", "%r8", "%r9", "%r10", "%r11"]

/-- Hold values only inside one block of an expression: they are written before they are read, and
no label is passed in between. -/
def scratch : List String := ["%r12", "%r13", "%r15"]

/-- A memory operand at a displacement from a register. -/
def memoryOperand (displacement : Int) (base : String) : String :=
  String.ofList (Decimal.intChars displacement) ++ "(" ++ base ++ ")"

/-- An immediate operand. -/
def immediateOperand (value : Int) : String :=
  "$" ++ String.ofList (Decimal.intChars value)

/-- Where a function finds its argument number `n` once it has set up its frame. Arguments on the
stack lie above the return address, the saved registers and the saved frame pointer. -/
def parameterLocation (n : Nat) : String :=
  match argumentRegisters[n]? with
  | some r => r
  | none =>
    memoryOperand (wordSize * (n - argumentRegisters.length + calleeSaved.length + 2 : Nat))
      framePointer

/-- How many of `n` arguments are passed on the stack. -/
def stackArguments (n : Nat) : Nat := n - argumentRegisters.length

end MicroC.Convention
