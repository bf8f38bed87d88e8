import MicroC.Assembly.Module
import MicroC.Machine.Cpu
import MicroC.Table

/-!
# Executable code

A module laid out in one sequence of cells, with its labels resolved to places in it. Operands are
decoded here; whether an instruction has the operands it needs shows when it runs.

* `arg?`: what an operand of an instruction on data denotes.
* `Code.ofModule`: the code of a module.
-/

namespace MicroC

/-- What a call goes to. -/
inductive Target
  /-- A block of the module and the place where it starts. -/
  | label (name : String) (address : Nat)
  /-- A function of the runtime. -/
  | symbol (name : String)
deriving DecidableEq, Repr

/-- An instruction with its operands decoded. -/
inductive Cell
  | data (opcode : Opcode) (args : List Arg)
  | jump (opcode : Opcode) (targets : List Nat)
  | call (targets : List Target)
deriving DecidableEq, Repr

/-- A memory operand: a displacement, which may be missing, and a register in parentheses. -/
def memoryArg? (text : List Char) : Option Arg :=
  match text.dropWhile (· != '(') with
  | _ :: rest =>
    match rest.reverse with
    | ')' :: name =>
      match Register.ofName? (String.ofList name.reverse) with
      | some base =>
        match text.takeWhile (· != '(') with
        | [] => some (.memory 0 base)
        | ds => ((Decimal.int? ds).bind Decimal.word?).map fun d => .memory d base
      | none => none
    | _ => none
  | [] => none

/-- What the text of an operand denotes. -/
def arg? (text : String) : Option Arg :=
  match text.toList with
  | '$' :: ds => ((Decimal.int? ds).bind Decimal.word?).map .immediate
  | cs =>
    match Register.ofName? text with
    | some r => some (.register r)
    | none => memoryArg? cs

/-- The places of blocks. -/
abbrev Labels := Table String Nat

/-- The places of blocks that are laid out from a place on. Of two blocks with one name the later one
counts; a block without a name has no label. -/
def labelsFrom (address : Nat) (labels : Labels) : List Block → Labels
  | [] => labels
  | b :: bs =>
    labelsFrom (address + b.code.length)
      (if b.name = "" then labels else labels.insert b.name address) bs

/-- Decodes the operands of an instruction on data, from the first to the last. -/
def decodeArgs (opcode : Opcode) : List String → Except MachineError (List Arg)
  | [] => .ok []
  | o :: os =>
    match arg? o with
    | none => .error (.invalidOperand opcode o)
    | some a => (decodeArgs opcode os).map (a :: ·)

/-- Decodes the operands of a jump. -/
def decodeJump (labels : Labels) : List String → Except MachineError (List Nat)
  | [] => .ok []
  | o :: os =>
    match labels.get? o with
    | none => .error (.unknownLabel o)
    | some address => (decodeJump labels os).map (address :: ·)

/-- What the operand of a call goes to: a block if there is one with that name. -/
def target (labels : Labels) (name : String) : Target :=
  match labels.get? name with
  | some address => .label name address
  | none => .symbol name

/-- Decodes an instruction. -/
def decode (labels : Labels) (i : Instruction) : Except MachineError Cell :=
  if i.opcode.isJump then (decodeJump labels i.operands).map (.jump i.opcode)
  else if i.opcode = .call then .ok (.call (i.operands.map (target labels)))
  else (decodeArgs i.opcode i.operands).map (.data i.opcode)

/-- Decodes instructions, from the first to the last. -/
def decodeAll (labels : Labels) : List Instruction → Except MachineError (List Cell)
  | [] => .ok []
  | i :: is =>
    match decode labels i with
    | .error e => .error e
    | .ok c => (decodeAll labels is).map (c :: ·)

/-- Code in the form in which it runs. -/
structure Code where
  cells : Array Cell
  labels : Labels

namespace Code

/-- The code of a module. -/
def ofModule (m : Module) : Except MachineError Code :=
  let labels := labelsFrom 0 .empty m.blocks
  (decodeAll labels m.instructions).map fun cells => ⟨cells.toArray, labels⟩

end Code

end MicroC
