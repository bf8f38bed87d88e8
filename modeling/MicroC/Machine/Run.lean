import MicroC.Machine.Code
import MicroC.Machine.Host

/-!
# Running code

A run calls a function of the module and goes on, step by step, until that call returns, an error
occurs or the limit of steps is reached. Every return must go to the place its call left.

* `step`: one instruction.
* `Machine.run`: a run from a label. The stack, unread input and output outlast a run; registers do
  not.
-/

namespace MicroC

open Convention

/-- Where to go on after an instruction. -/
inductive Next
  | advance
  | goto (address : Nat)
  | halt (value : Int64)
deriving DecidableEq, Repr

/-- The return address of the call that starts a run. -/
def haltAddress : Int64 := -1

namespace Act

/-- A call must find the stack aligned. -/
def checkAlignment (function : String) : Act Unit := fun c =>
  if c.rsp % stackAlignment = 0 then .ok () c else .error (.misalignedCall function c.rsp) c

/-- Calls a block from the instruction at `pc`. -/
def enter (name : String) (address pc : Nat) : Act Next := do
  checkAlignment name
  let back := Int64.ofNat (pc + 1)
  push back
  modify fun c => { c with returns := back :: c.returns }
  return .goto address

/-- Returns from the call that is in progress. -/
def leave : Act Next := do
  let address ← pop
  let expected ← modifyGet fun c => (c.returns.head?, { c with returns := c.returns.tail })
  if expected ≠ some address then throw .corruptReturnAddress
  if address = haltAddress then return .halt (← get .rax)
  return .goto address.toInt.toNat

/-- A jump, if its condition holds. -/
def jump (opcode : Opcode) (targets : List Nat) : Act Next := do
  let taken ← if opcode = .jmp then pure true else condition opcode
  if taken then
    match targets.head? with
    | some address => return .goto address
    | none => throw (.invalidOperand opcode "")
  else return .advance

/-- Where argument number `n` of a call of the runtime is: in a register, or on the stack from the
stack pointer upwards. -/
def argument (n : Nat) : Act Int64 := do
  match argumentRegisters[n]? with
  | some name =>
    match Register.ofName? name with
    | some r => get r
    | none => return 0
  | none => load ((← get .rsp).toUInt64.toNat + (n - argumentRegisters.length) * wordSize)

/-- The arguments of a call of the runtime, from number `n` on. -/
def argumentsFrom (n : Nat) : Nat → Act (List Int64)
  | 0 => return []
  | k + 1 => do
    let w ← argument n
    return w :: (← argumentsFrom (n + 1) k)

/-- The arguments of a call of a function of the runtime, which takes a number of them if it exists. -/
def prepare (name : String) (arity : Option Nat) : Act (List Int64) := do
  match arity with
  | none => throw (.unknownFunction name)
  | some n =>
    checkAlignment name
    argumentsFrom 0 n

end Act

variable {σ : Type} [Runtime σ]

/-- What a step comes to. -/
structure Stepped (σ : Type) where
  next : Except MachineError Next
  cpu : Cpu
  host : σ

/-- A step that leaves the host alone. -/
def Act.step (act : Act Next) (cpu : Cpu) (host : σ) : Stepped σ :=
  match act cpu with
  | .ok n cpu => ⟨.ok n, cpu, host⟩
  | .error e cpu => ⟨.error e, cpu, host⟩

/-- Calls a function of the runtime; its result goes to `%rax`. -/
def callHost (name : String) (cpu : Cpu) (host : σ) : Stepped σ :=
  match Act.prepare name (Runtime.arity name host) cpu with
  | .error e cpu => ⟨.error e, cpu, host⟩
  | .ok args cpu =>
    match Runtime.call name args host with
    | (.error e, host) => ⟨.error e, cpu, host⟩
    | (.ok w, host) => ⟨.ok .advance, cpu.set .rax w, host⟩

/-- Executes the instruction at `pc`. -/
def step (pc : Nat) (cell : Cell) (cpu : Cpu) (host : σ) : Stepped σ :=
  match cell with
  | .data .retq _ => Act.leave.step cpu host
  | .data opcode args => Act.step (do Act.execute opcode args; return .advance) cpu host
  | .jump opcode targets => (Act.jump opcode targets).step cpu host
  | .call [] => Act.step (throw (.invalidOperand .call "")) cpu host
  | .call (.label name address :: _) => (Act.enter name address pc).step cpu host
  | .call (.symbol name :: _) => callHost name cpu host

/-- What a run comes to. -/
structure Finished (σ : Type) where
  result : Except MachineError Int64
  cpu : Cpu
  host : σ
  /-- How many instructions were executed. -/
  steps : Nat

/-- Goes on at `pc` for at most `left` of `limit` steps. A step counts even if it fails or there is no
instruction. -/
def runFrom (code : Code) (limit : Nat) :
    (left : Nat) → (pc : Nat) → (cpu : Cpu) → (host : σ) → Finished σ
  | 0, _, cpu, host => ⟨.error (.stepLimitExceeded limit), cpu, host, limit⟩
  | left + 1, pc, cpu, host =>
    match code.cells[pc]? with
    | none => ⟨.error .ranOffEnd, cpu, host, limit - left⟩
    | some cell =>
      match step pc cell cpu host with
      | ⟨.error e, cpu, host⟩ => ⟨.error e, cpu, host, limit - left⟩
      | ⟨.ok .advance, cpu, host⟩ => runFrom code limit left (pc + 1) cpu host
      | ⟨.ok (.goto pc), cpu, host⟩ => runFrom code limit left pc cpu host
      | ⟨.ok (.halt w), cpu, host⟩ => ⟨.ok w, cpu, host, limit - left⟩

/-- The number of steps that a run may take unless it is told otherwise. -/
def defaultStepLimit : Nat := 10000000

/-- Code with what outlasts a run. -/
structure Machine (σ : Type) where
  code : Code
  stack : Stack
  host : σ
  stepLimit : Nat
  /-- The number of steps of the last run. -/
  steps : Nat

namespace Machine

/-- A machine for a module, with a cleared stack. -/
def ofModule (m : Module) (host : σ) (stepLimit : Nat := defaultStepLimit) :
    Except MachineError (Machine σ) :=
  (Code.ofModule m).map fun code =>
    { code, stack := .replicate stackWords 0, host, stepLimit, steps := 0 }

/-- The processor in front of the first instruction of a run: the stack holds the return address that
ends the run. -/
def entered (stack : Stack) : Except MachineError Unit × Cpu :=
  match Act.push haltAddress (Cpu.start stack) with
  | .ok () cpu => (.ok (), { cpu with returns := [haltAddress] })
  | .error e cpu => (.error e, cpu)

/-- Calls the function at a label and gives its result. A label that does not exist leaves the machine
as it was. -/
def run (m : Machine σ) (entry : String) : Except MachineError Int64 × Machine σ :=
  match m.code.labels.get? entry with
  | none => (.error (.unknownFunction entry), m)
  | some pc =>
    match entered m.stack with
    | (.error e, cpu) => (.error e, { m with stack := cpu.stack, steps := 0 })
    | (.ok (), cpu) =>
      let f := runFrom m.code m.stepLimit m.stepLimit pc cpu m.host
      (f.result, { m with stack := f.cpu.stack, host := f.host, steps := f.steps })

end Machine

end MicroC
