import MicroC.Assembly.Opcode

/-!
# Assembly modules

A module is a sequence of labelled blocks of instructions. An instruction has its operands as text,
the source in front of the destination. A listing puts mnemonics, operands and comments in fixed
columns:

```text
.global main
main:                                   # Entry point of function 'main'
    pushq       %r15                    # Save callee-saved register
```

* `Module.push`, `Module.pushBlock`: a module grows at its end.
* `Module.listing`: the assembler text.
-/

namespace MicroC

/-! ## Columns -/

/-- Fills a line with spaces up to a column, counted in bytes. Text that reaches the column already
is followed by one space. -/
def padTo (column : Nat) (line : String) : String :=
  let width :=
    if line.utf8ByteSize < column then column - line.utf8ByteSize
    else if line.isEmpty then 0 else 1
  line ++ String.ofList (List.replicate width ' ')

/-- Where mnemonics start. -/
def opcodeColumn : Nat := 4

/-- Where operands start. -/
def operandColumn : Nat := 16

/-- Where comments start. -/
def commentColumn : Nat := 40

/-- Adds a comment to a line. -/
def withComment (comment : Option String) (line : String) : String :=
  match comment with
  | some c => padTo commentColumn line ++ "# " ++ c
  | none => line

/-! ## Instructions -/

/-- An instruction with its operands and a comment for the listing. -/
structure Instruction where
  opcode : Opcode
  operands : List String
  comment : Option String := none
deriving DecidableEq, Repr

namespace Instruction

/-- An instruction that does nothing. -/
def nop : Instruction := { opcode := .nop, operands := [] }

def isNop (i : Instruction) : Bool := i.opcode == .nop

/-- Operand `n`, or no text at all. -/
def operand (i : Instruction) (n : Nat) : String := i.operands.getD n ""

/-- An instruction with a comment; an empty comment is none. -/
def commented (opcode : Opcode) (operands : List String) (comment : String) : Instruction where
  opcode
  operands
  comment := if comment = "" then none else some comment

/-- The line of a listing. -/
def line (i : Instruction) : String :=
  let mnemonic := padTo opcodeColumn "" ++ i.opcode.text
  withComment i.comment <|
    if i.operands.isEmpty then mnemonic
    else padTo operandColumn mnemonic ++ ", ".intercalate i.operands

end Instruction

/-! ## Blocks and modules -/

/-- A labelled run of instructions. -/
structure Block where
  name : String
  comment : Option String := none
  /-- Whether the label is visible outside the module. -/
  isGlobal : Bool := false
  code : List Instruction := []
deriving DecidableEq, Repr

namespace Block

/-- The label as it stands in front of the instructions; a block without a name has none. -/
def header (b : Block) : String :=
  (if b.isGlobal then s!".global {b.name}\n" else "")
    ++ if b.name = "" then "" else withComment b.comment (b.name ++ ":") ++ "\n"

/-- The lines of a block, behind an empty line. -/
def listing (b : Block) : String :=
  "\n" ++ b.header ++ String.join (b.code.map fun i => i.line ++ "\n")

/-- Adds an instruction at the end. -/
def push (b : Block) (i : Instruction) : Block := { b with code := b.code ++ [i] }

end Block

/-- Blocks in the order in which they are laid out. -/
structure Module where
  blocks : List Block := []
deriving DecidableEq, Repr

namespace Module

/-- Opens a block at the end. -/
def pushBlock (m : Module) (b : Block) : Module := ⟨m.blocks ++ [b]⟩

/-- Adds an instruction to the last block. In front of all blocks it opens one without a name. -/
def push (m : Module) (i : Instruction) : Module :=
  match m.blocks.getLast? with
  | some b => ⟨m.blocks.dropLast ++ [b.push i]⟩
  | none => ⟨[{ name := "", code := [i] }]⟩

/-- The first block with a given name. -/
def block? (m : Module) (name : String) : Option Block := m.blocks.find? (·.name == name)

/-- All instructions in the order of their layout. -/
def instructions (m : Module) : List Instruction := m.blocks.flatMap Block.code

def instructionCount (m : Module) : Nat := m.instructions.length

/-- The assembler text. -/
def listing (m : Module) : String := String.join (m.blocks.map Block.listing)

/-- Makes instruction `i` of block `b` do nothing. -/
def makeNop (m : Module) (b i : Nat) : Module :=
  ⟨m.blocks.modify b fun block => { block with code := block.code.set i .nop }⟩

end Module

end MicroC
