import MicroC.Assembly.Flow
import MicroC.Machine.Cpu

/-!
# Routines

The instructions that functions are made of, as operations on a frame: data registers, the words below the
frame pointer and the stack arguments above it. Saving registers, setting up a frame and giving it up again
are the same everywhere and no part of a body.

* `Reg`, `Src`, `Op`: registers, sources and operations, with the opcode and the operands of each.
* `Item`, `Subroutine`: a body is a list of operations and labels.
-/

namespace MicroC

open Convention

/-! ## Registers -/

/-- The name of a register. -/
def Register.name : Register → String
  | .rax => "%rax"
  | .rbx => "%rbx"
  | .rcx => "%rcx"
  | .rdx => "%rdx"
  | .rsi => "%rsi"
  | .rdi => "%rdi"
  | .rbp => "%rbp"
  | .rsp => "%rsp"
  | .r8 => "%r8"
  | .r9 => "%r9"
  | .r10 => "%r10"
  | .r11 => "%r11"
  | .r12 => "%r12"
  | .r13 => "%r13"
  | .r14 => "%r14"
  | .r15 => "%r15"

@[simp] theorem Register.ofName?_name (r : Register) : Register.ofName? r.name = some r := by
  cases r <;> rfl

theorem Register.name_injective {r s : Register} (h : r.name = s.name) : r = s := by
  have := congrArg Register.ofName? h
  simpa using this

/-- A register for data: neither the stack pointer nor the frame pointer. -/
structure Reg where
  register : Register
  ne_rsp : register ≠ .rsp
  ne_rbp : register ≠ .rbp
deriving DecidableEq

namespace Reg

def rax : Reg := ⟨.rax, by decide, by decide⟩
def rbx : Reg := ⟨.rbx, by decide, by decide⟩
def rcx : Reg := ⟨.rcx, by decide, by decide⟩
def rdx : Reg := ⟨.rdx, by decide, by decide⟩
def rsi : Reg := ⟨.rsi, by decide, by decide⟩
def rdi : Reg := ⟨.rdi, by decide, by decide⟩
def r8 : Reg := ⟨.r8, by decide, by decide⟩
def r9 : Reg := ⟨.r9, by decide, by decide⟩
def r12 : Reg := ⟨.r12, by decide, by decide⟩
def r13 : Reg := ⟨.r13, by decide, by decide⟩
def r14 : Reg := ⟨.r14, by decide, by decide⟩
def r15 : Reg := ⟨.r15, by decide, by decide⟩

def name (r : Reg) : String := r.register.name

/-- Carry the first arguments of a call, in order. -/
def arguments : List Reg := [rdi, rsi, rdx, rcx, r8, r9]

/-- Keep their values over a call. -/
def saved : List Reg := [rbx, r12, r13, r14, r15]

/-- Hold values only inside one block. -/
def isScratch (r : Reg) : Bool := r == r12 || r == r13 || r == r15

theorem isScratch_of_mem_arguments : ∀ r ∈ arguments, r.isScratch = false := by decide

theorem register_injective {r s : Reg} (h : r.register = s.register) : r = s := by
  cases r
  cases s
  cases h
  rfl

theorem name_injective {r s : Reg} (h : r.name = s.name) : r = s :=
  register_injective (Register.name_injective h)

theorem map_name_arguments : arguments.map name = argumentRegisters := rfl

end Reg

/-! ## Operations -/

/-- What an operation reads. -/
inductive Src
  | imm (w : Int64)
  | reg (r : Reg)
  /-- The word with `n` words of the frame above it, next to the frame pointer first. -/
  | slot (n : Nat)
  /-- The argument with `n` stack arguments in front of it. -/
  | param (n : Nat)
deriving DecidableEq

namespace Src

/-- The place of a slot relative to the frame pointer. -/
def slotOffset (n : Nat) : Int := -((wordSize * (n + 1) : Nat) : Int)

/-- The place of a stack argument relative to the frame pointer. -/
def paramOffset (n : Nat) : Int := (wordSize * (n + calleeSaved.length + 2) : Nat)

def text : Src → String
  | .imm w => immediateOperand w.toInt
  | .reg r => r.name
  | .slot n => memoryOperand (slotOffset n) framePointer
  | .param n => memoryOperand (paramOffset n) framePointer

end Src

/-- What a word of a frame is used for. -/
inductive Kind
  /-- A temporary of an expression. -/
  | temp
  /-- A variable. -/
  | var
  /-- Padding, or a variable without a value. -/
  | pad
deriving DecidableEq

/-- Arithmetic with one opcode. -/
inductive Arith
  | add
  | sub
  | mul
deriving DecidableEq

namespace Arith

def opcode : Arith → Opcode
  | .add => .addq
  | .sub => .subq
  | .mul => .imulq

/-- The new value of the destination. -/
def apply : Arith → Int64 → Int64 → Int64
  | .add, dst, src => dst + src
  | .sub, dst, src => dst - src
  | .mul, dst, src => dst * src

end Arith

/-- The order of two words that a conditional move asks for. -/
inductive Order
  | eq
  | ne
  | lt
  | le
  | gt
  | ge
deriving DecidableEq

namespace Order

def opcode : Order → Opcode
  | .eq => .cmove
  | .ne => .cmovne
  | .lt => .cmovl
  | .le => .cmovle
  | .gt => .cmovg
  | .ge => .cmovge

def holds (o : Order) (dst src : Int64) : Bool :=
  match o with
  | .eq => dst == src
  | .ne => dst != src
  | .lt => dst < src
  | .le => dst ≤ src
  | .gt => src < dst
  | .ge => src ≤ dst

theorem holds_opcode (o : Order) (dst src : Int64) : Act.holds o.opcode dst src = o.holds dst src := by
  cases o <;> rfl

end Order

/-- When a jump is taken. -/
inductive Jump
  | always
  | unequal
  | atMost
deriving DecidableEq

namespace Jump

def opcode : Jump → Opcode
  | .always => .jmp
  | .unequal => .jne
  | .atMost => .jle

/-- Whether the jump is taken; only some jumps need a comparison in front of them. -/
def taken? (j : Jump) (flags : Option (Int64 × Int64)) : Option Bool :=
  match j with
  | .always => some true
  | .unequal => flags.map fun f => f.1 != f.2
  | .atMost => flags.map fun f => f.1 ≤ f.2

end Jump

/-- An operation of a body. -/
inductive Op
  /-- Puts a word of some kind on the stack. -/
  | push (s : Src) (k : Kind)
  | pop (r : Reg)
  | move (s : Src) (r : Reg)
  /-- Gives a slot the value of a register. -/
  | store (r : Reg) (n : Nat)
  /-- Reads the word on top of the stack. -/
  | peek (r : Reg)
  | combine (f : Arith) (s : Src) (r : Reg)
  | negate (r : Reg)
  /-- Extends the sign of `rax` into `rdx`. -/
  | extend
  /-- Divides `rax`; the quotient goes to `rax` and the remainder to `rdx`. -/
  | divide (r : Reg)
  | compare (s : Src) (r : Reg)
  | select (o : Order) (s r : Reg)
  /-- Puts a word of any value on the stack. -/
  | grow
  /-- Takes `n + 1` words off the stack. -/
  | shrink (n : Nat)
  | nop
  | jump (j : Jump) (label : String)
  /-- Goes to the exit of the routine. -/
  | exit
  | call (name : String)
deriving DecidableEq

namespace Op

def opcode : Op → Opcode
  | .push .. => .pushq
  | .pop _ => .popq
  | .move .. | .store .. | .peek _ => .movq
  | .combine f _ _ => f.opcode
  | .negate _ => .negq
  | .extend => .cqto
  | .divide _ => .idivq
  | .compare .. => .cmpq
  | .select o _ _ => o.opcode
  | .grow => .subq
  | .shrink _ => .addq
  | .nop => .nop
  | .jump j _ => j.opcode
  | .exit => .jmp
  | .call _ => .call

/-- The operands in a routine whose exit has a given label. -/
def operands (exitLabel : String) : Op → List String
  | .push s _ => [s.text]
  | .pop r => [r.name]
  | .move s r => [s.text, r.name]
  | .store r n => [r.name, (Src.slot n).text]
  | .peek r => ["(%rsp)", r.name]
  | .combine _ s r => [s.text, r.name]
  | .negate r => [r.name]
  | .extend => []
  | .divide r => [r.name]
  | .compare s r => [s.text, r.name]
  | .select _ s r => [s.name, r.name]
  | .grow => [immediateOperand wordSize, stackPointer]
  | .shrink n => [immediateOperand ((n + 1) * wordSize : Nat), stackPointer]
  | .nop => []
  | .jump _ l => [l]
  | .exit => [exitLabel]
  | .call f => [f]

/-- Operations that neither jump nor call. -/
def isData : Op → Bool
  | .jump .. | .exit | .call _ => false
  | _ => true

theorem opcode_ne_retq (o : Op) : o.opcode ≠ .retq := by
  cases o with
  | combine f s r => cases f <;> nofun
  | select c s r => cases c <;> nofun
  | jump j l => cases j <;> nofun
  | _ => nofun

end Op

/-! ## Bodies -/

/-- A label with the kinds of the words on the stack there, or an operation. -/
inductive Item
  | label (name : String) (words : List Kind)
  | op (o : Op)
deriving DecidableEq

/-- How many instructions an item is. -/
def Item.width : Item → Nat
  | .label .. => 0
  | .op _ => 1

/-- How many instructions a list of items is. -/
def width : List Item → Nat
  | [] => 0
  | i :: is => i.width + width is

@[simp] theorem width_nil : width [] = 0 := rfl

@[simp] theorem width_label (l : String) (ks : List Kind) (is : List Item) :
    width (.label l ks :: is) = width is := Nat.zero_add _

@[simp] theorem width_op (o : Op) (is : List Item) : width (.op o :: is) = width is + 1 :=
  Nat.add_comm _ _

@[simp] theorem width_append (is js : List Item) : width (is ++ js) = width is + width js := by
  induction is with
  | nil => simp
  | cons i is ih =>
    rw [List.cons_append, width, width, ih]
    omega

/-- The labels of a list of items, each with the kinds of the words there. -/
def labels : List Item → List (String × List Kind)
  | [] => []
  | .label l ks :: is => (l, ks) :: labels is
  | .op _ :: is => labels is

@[simp] theorem labels_append (is js : List Item) : labels (is ++ js) = labels is ++ labels js := by
  induction is with
  | nil => rfl
  | cons i is ih => cases i <;> simp [labels, ih]

/-- The items behind a label. -/
def behind (l : String) : List Item → Option (List Item)
  | [] => none
  | .label m _ :: is => if l = m then some is else behind l is
  | .op _ :: is => behind l is

/-- A function without the code that sets up its frame and gives it up. -/
structure Subroutine where
  name : String
  /-- The number of parameters. -/
  arity : Nat
  body : List Item

end MicroC
