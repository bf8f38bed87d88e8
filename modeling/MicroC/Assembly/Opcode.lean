/-!
# Opcodes

The instructions of the target machine.
-/

namespace MicroC

/-- An operation of the target machine. `nop` does nothing. -/
inductive Opcode
  | pushq
  | popq
  | movq
  | addq
  | subq
  | imulq
  | idivq
  | cqto
  | negq
  | cmpq
  | cmove
  | cmovne
  | cmovl
  | cmovle
  | cmovg
  | cmovge
  | jmp
  | je
  | jne
  | jle
  | call
  | retq
  | nop
deriving DecidableEq, Repr

namespace Opcode

/-- Every opcode once. -/
def all : List Opcode :=
  [.pushq, .popq, .movq, .addq, .subq, .imulq, .idivq, .cqto, .negq, .cmpq, .cmove, .cmovne, .cmovl,
    .cmovle, .cmovg, .cmovge, .jmp, .je, .jne, .jle, .call, .retq, .nop]

def text : Opcode → String
  | .pushq => "pushq"
  | .popq => "popq"
  | .movq => "movq"
  | .addq => "addq"
  | .subq => "subq"
  | .imulq => "imulq"
  | .idivq => "idivq"
  | .cqto => "cqto"
  | .negq => "negq"
  | .cmpq => "cmpq"
  | .cmove => "cmove"
  | .cmovne => "cmovne"
  | .cmovl => "cmovl"
  | .cmovle => "cmovle"
  | .cmovg => "cmovg"
  | .cmovge => "cmovge"
  | .jmp => "jmp"
  | .je => "je"
  | .jne => "jne"
  | .jle => "jle"
  | .call => "call"
  | .retq => "retq"
  | .nop => "nop"

/-- The opcode with a given mnemonic. -/
def ofText? (t : String) : Option Opcode := all.find? (·.text == t)

/-- Conditional moves. -/
def isCmov : Opcode → Bool
  | .cmove | .cmovne | .cmovl | .cmovle | .cmovg | .cmovge => true
  | _ => false

/-- Jumps, conditional or not. -/
def isJump : Opcode → Bool
  | .jmp | .je | .jne | .jle => true
  | _ => false

/-- Instructions behind which execution may go on elsewhere. -/
def transfersControl : Opcode → Bool
  | .jmp | .je | .jne | .jle | .call | .retq => true
  | _ => false

end Opcode

end MicroC
