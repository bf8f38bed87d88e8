/-!
# Registers

The sixteen general registers and a file of their values.
-/

namespace MicroC

/-- A general register. -/
inductive Register
  | rax
  | rbx
  | rcx
  | rdx
  | rsi
  | rdi
  | rbp
  | rsp
  | r8
  | r9
  | r10
  | r11
  | r12
  | r13
  | r14
  | r15
deriving DecidableEq, Repr

namespace Register

/-- The register with a given name. -/
def ofName? : String → Option Register
  | "%rax" => some .rax
  | "%rbx" => some .rbx
  | "%rcx" => some .rcx
  | "%rdx" => some .rdx
  | "%rsi" => some .rsi
  | "%rdi" => some .rdi
  | "%rbp" => some .rbp
  | "%rsp" => some .rsp
  | "%r8" => some .r8
  | "%r9" => some .r9
  | "%r10" => some .r10
  | "%r11" => some .r11
  | "%r12" => some .r12
  | "%r13" => some .r13
  | "%r14" => some .r14
  | "%r15" => some .r15
  | _ => none

/-- The place of a register in a register file. -/
def index : Register → Fin 16
  | .rax => 0
  | .rbx => 1
  | .rcx => 2
  | .rdx => 3
  | .rsi => 4
  | .rdi => 5
  | .rbp => 6
  | .rsp => 7
  | .r8 => 8
  | .r9 => 9
  | .r10 => 10
  | .r11 => 11
  | .r12 => 12
  | .r13 => 13
  | .r14 => 14
  | .r15 => 15

theorem index_injective {r s : Register} (h : r.index = s.index) : r = s := by
  cases r <;> cases s <;> first | rfl | exact absurd h (by decide)

end Register

/-- A value for each register. -/
structure Registers where
  file : Vector Int64 16

namespace Registers

/-- All registers hold zero. -/
def zero : Registers := ⟨.replicate 16 0⟩

/-- The value of a register. -/
def get (rs : Registers) (r : Register) : Int64 := rs.file[r.index]

/-- Gives a register a value. -/
def set (rs : Registers) (r : Register) (w : Int64) : Registers := ⟨rs.file.set r.index w⟩

@[simp] theorem get_zero (r : Register) : zero.get r = 0 := by
  simp [zero, get]

@[simp] theorem get_set_self (rs : Registers) (r : Register) (w : Int64) :
    (rs.set r w).get r = w := by
  simp [get, set]

/-- Setting one register leaves the others as they are. -/
theorem get_set_of_ne (rs : Registers) {r s : Register} (h : s ≠ r) (w : Int64) :
    (rs.set r w).get s = rs.get s := by
  have : (r.index : Nat) ≠ s.index := fun hi => h (Register.index_injective (Fin.ext hi)).symm
  simp only [get, set]
  exact Vector.getElem_set_ne _ _ this

end Registers

end MicroC
