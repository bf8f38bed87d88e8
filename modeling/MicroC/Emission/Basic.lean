import MicroC.Analysis
import MicroC.Assembly.Flow
import MicroC.Emission.Frame

/-!
# Emitting code

Code is emitted line by line. An emission keeps track of the frame and of the labels in use, can
look up the tables of the analysis, and fails on constructs that have no code.

* `Line`: an instruction, or the start of a block.
* `Emit`: an emission, with its `Monad` instance.
* `Module.ofLines`: the module that lines make up.
-/

namespace MicroC

/-! ## Errors -/

/-- The tables that the code depends on. -/
inductive TableName
  | function
  | symbol
  | type
deriving DecidableEq, Repr

def TableName.text : TableName → String
  | .function => "function"
  | .symbol => "symbol"
  | .type => "type"

/-- Constructs without code. Only integers have code. -/
inductive Construct
  | values (ty : Ty)
  | conditions (ty : Ty)
  | parameters (ty : Ty)
  | variables (ty : Ty)
  | floatLiterals
  | stringLiterals
  | arrayReferences
  | arrayDeclarations
deriving DecidableEq, Repr

/-- A text with its first letter in upper case. -/
def capitalized (text : String) : String :=
  match text.toList with
  | c :: cs => String.ofList (c.toUpper :: cs)
  | [] => ""

def Construct.text (c : Construct) : String :=
  capitalized <| match c with
    | .values ty => ty.text ++ " values"
    | .conditions ty => ty.text ++ " conditions"
    | .parameters ty => ty.text ++ " parameters"
    | .variables ty => ty.text ++ " variables"
    | .floatLiterals => "float literals"
    | .stringLiterals => "string literals"
    | .arrayReferences => "array references"
    | .arrayDeclarations => "array declarations"

/-- Why there is no code. -/
inductive EmissionFault
  | unsupported (what : Construct)
  | invalidAssignmentTarget
  | unallocatedVariable (name : String)
  | missingEntry (table : TableName) (node : NodeId)
deriving DecidableEq, Repr

def EmissionFault.message : EmissionFault → String
  | .unsupported what => s!"{what.text} not supported by this code generator"
  | .invalidAssignmentTarget => "Only variable references can be used as lvalues"
  | .unallocatedVariable n => s!"Variable '{n}' is not allocated in the stack frame"
  | .missingEntry t n => s!"No {t.text} entry for node {n.text}"

/-- A fault and its place; a gap in a table has none. -/
structure EmissionError where
  fault : EmissionFault
  span : Option Span
deriving DecidableEq, Repr

def EmissionError.message (e : EmissionError) : String := e.fault.message

/-! ## Lines -/

/-- A line of a module: the start of a block, or an instruction of the block before it. -/
inductive Line
  | label (name : String) (comment : String) (isGlobal : Bool)
  | code (i : Instruction)
deriving DecidableEq, Repr

/-- The code in front of the first label, and the blocks from there on. -/
def splitLines : List Line → List Instruction × List Block
  | [] => ([], [])
  | .code i :: lines =>
    let (code, blocks) := splitLines lines
    (i :: code, blocks)
  | .label name comment isGlobal :: lines =>
    let (code, blocks) := splitLines lines
    ([], { name, comment := some comment, isGlobal, code } :: blocks)

/-- The module that lines make up. Code in front of all labels is a block without a name. -/
def Module.ofLines (lines : List Line) : Module :=
  match splitLines lines with
  | ([], blocks) => ⟨blocks⟩
  | (code, blocks) => ⟨{ name := "", code } :: blocks⟩

/-! ## Emissions -/

/-- What an emission starts from: the frame, and how many labels are in use. -/
structure Layout where
  frame : Frame := {}
  labels : Nat := 0

/-- What an emission comes to: a value, the lines emitted, and the layout behind them. -/
structure Emitted (α : Type) where
  value : α
  lines : List Line
  layout : Layout

/-- An emission of code. -/
def Emit (α : Type) : Type := Layout → Except EmissionError (Emitted α)

namespace Emit

variable {α β : Type}

/-- Emits nothing. -/
protected def pure (a : α) : Emit α := fun l => .ok ⟨a, [], l⟩

/-- Emits the lines of two emissions, one behind the other. -/
protected def bind (x : Emit α) (f : α → Emit β) : Emit β := fun l =>
  match x l with
  | .error e => .error e
  | .ok a =>
    match f a.value a.layout with
    | .error e => .error e
    | .ok b => .ok ⟨b.value, a.lines ++ b.lines, b.layout⟩

instance : Monad Emit where
  pure := Emit.pure
  bind := Emit.bind

/-- Fails. -/
def fail (fault : EmissionFault) (span : Option Span) : Emit α := fun _ => .error ⟨fault, span⟩

/-- Rejects a construct. -/
def unsupported (what : Construct) (span : Span) : Emit α := fail (.unsupported what) (some span)

/-- The frame at this point. -/
def frame : Emit Frame := fun l => .ok ⟨l.frame, [], l⟩

/-- Changes the frame. -/
def modifyFrame (f : Frame → Frame) : Emit Unit := fun l =>
  .ok ⟨(), [], { l with frame := f l.frame }⟩

/-- A label that is not in use yet. -/
def freshLabel (suffix : String) : Emit String := fun l =>
  .ok ⟨s!".L{l.labels}_{suffix}", [], { l with labels := l.labels + 1 }⟩

/-- Emits an instruction. -/
def instruction (opcode : Opcode) (operands : List String) (comment : String) : Emit Unit :=
  fun l => .ok ⟨(), [.code (.commented opcode operands comment)], l⟩

/-- Starts a block. -/
def label (name comment : String) (isGlobal : Bool := false) : Emit Unit := fun l =>
  .ok ⟨(), [.label name comment isGlobal], l⟩

open Convention

/-- Pushes a temporary. -/
def push (operand comment : String) : Emit Unit := do
  instruction .pushq [operand] comment
  modifyFrame (·.pushTemps 1)

/-- Pops a temporary into a register. -/
def pop (register comment : String) : Emit Unit := do
  instruction .popq [register] comment
  modifyFrame (·.popTemps 1)

/-- Takes words off the stack. -/
def shrinkStack (words : Nat) (comment : String) : Emit Unit :=
  if words = 0 then pure ()
  else instruction .addq [immediateOperand (words * wordSize : Nat), stackPointer] comment

/-- Puts one word of any value on the stack. -/
def growStack (comment : String) : Emit Unit :=
  instruction .subq [immediateOperand wordSize, stackPointer] comment

/-- Pads the frame if its variables leave the stack out of alignment. -/
def alignFrame : Emit Unit := do
  if (← frame).isAligned then return
  growStack "Pad frame to 16 bytes"
  modifyFrame (·.setPadded true)

/-- Gives up the words of the variables that `body` declared. -/
def scope (body : Emit Unit) : Emit Unit := do
  let outer ← frame
  body
  let inner ← frame
  modifyFrame (·.release outer)
  shrinkStack (inner.releasedWords outer) "Release block locals"

/-- The type of a node. -/
def typeOf (a : Analysis) (node : NodeId) : Emit Ty :=
  match a.types.get? node with
  | some ty => pure ty
  | none => fail (.missingEntry .type node) none

/-- The operand for the variable that a use refers to. -/
def slotOf (a : Analysis) (use : NodeId) (n : Ident) : Emit String := do
  match a.symbols.get? use with
  | none => fail (.missingEntry .symbol use) none
  | some d =>
    match (← frame).offset? d with
    | none => fail (.unallocatedVariable n.name) (some n.span)
    | some offset => return memoryOperand offset framePointer

/-- A declaration must be of type `int`. -/
def expectInt (a : Analysis) (b : Binder) (what : Ty → Construct) : Emit Unit := do
  match ← typeOf a b.site.id with
  | .scalar .int => return
  | ty => unsupported (what ty) b.name.span

end Emit

end MicroC
