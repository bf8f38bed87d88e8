import MicroC.Assembly.Opcode

/-!
# Errors of a run
-/

namespace MicroC

/-- What ends a run without a result. -/
inductive MachineError
  /-- A jump to a label that no block has. -/
  | unknownLabel (name : String)
  /-- A call of a function that neither the module nor the runtime has. -/
  | unknownFunction (name : String)
  /-- A call while the stack is out of alignment. -/
  | misalignedCall (function : String) (rsp : Nat)
  | stackOverflow
  /-- An access outside the stack or across words. -/
  | invalidAddress (address : Nat)
  | invalidOperand (opcode : Opcode) (operand : String)
  /-- A condition in front of every comparison. -/
  | flagsUnset (opcode : Opcode)
  | divisionByZero
  /-- A quotient outside the signed 64-bit range. -/
  | divisionOverflow
  /-- The least dividend by minus one, whose quotient has not even a signed 128-bit form. It stops
  the machine itself, so nothing of the run remains. -/
  | divisionTrap
  | stepLimitExceeded (limit : Nat)
  /-- A return to another place than the one the call left. -/
  | corruptReturnAddress
  | ranOffEnd
  | inputExhausted
  | invalidInput (text : String)
  /-- Input that is no UTF-8 text. -/
  | undecodableInput
deriving DecidableEq, Repr

/-- A number in hexadecimal. -/
def hexText (n : Nat) : String := "0x" ++ String.ofList (Nat.toDigits 16 n)

namespace MachineError

def message : MachineError → String
  | .unknownLabel n => s!"Jump to unknown label '{n}'"
  | .unknownFunction n => s!"Call to unknown function '{n}'"
  | .misalignedCall f rsp => s!"Call to '{f}' with misaligned stack pointer {hexText rsp}"
  | .stackOverflow => "Stack overflow"
  | .invalidAddress a => s!"Invalid memory access at {hexText a}"
  | .invalidOperand op o => s!"Invalid operand '{o}' for {op.text}"
  | .flagsUnset op => s!"{op.text} executed before any comparison"
  | .divisionByZero => "Division by zero"
  | .divisionOverflow => "Quotient does not fit in 64 bits"
  | .divisionTrap => "attempt to divide with overflow"
  | .stepLimitExceeded n => s!"Step limit of {n} instructions exceeded"
  | .corruptReturnAddress => "Return address on the stack was overwritten"
  | .ranOffEnd => "Execution ran past the end of the module"
  | .inputExhausted => "No more input available for 'read'"
  | .invalidInput t => s!"Invalid integer input '{t}'"
  | .undecodableInput => "stream did not contain valid UTF-8"

end MachineError

end MicroC
