import Mathlib.Algebra.Group.Int.Defs
import Mathlib.Algebra.Group.Nat.Defs
import MicroC.Machine.Cpu

/-!
# Addresses of the stack

* `addr`: the stack pointer of a stack with a given number of words.
* `slot?_addr`: the last word of such a stack, if the stack has not run over.
-/

namespace MicroC

open Convention

/-- The stack pointer of a stack of `k` words. -/
def addr (k : Nat) : Int64 := Int64.ofInt (stackTop - wordSize * k : Int)

/-- More words than any frame has. -/
def addressLimit : Nat := 2 ^ 60

theorem toNat_ofInt (i : Int) : (Int64.ofInt i).toUInt64.toNat = (i % 2 ^ 64).toNat :=
  BitVec.toNat_ofInt i

theorem addr_zero : addr 0 = Int64.ofNat stackTop := rfl

theorem addr_add (k n : Nat) (h : n ≤ k) :
    addr k + Int64.ofInt (wordSize * n : Nat) = addr (k - n) := by
  rw [addr, addr, ← Int64.ofInt_add]
  exact congrArg Int64.ofInt (by simp only [wordSize]; omega)

theorem addr_sub (k n : Nat) : addr k + Int64.ofInt (-(wordSize * n : Nat) : Int) = addr (k + n) := by
  rw [addr, addr, ← Int64.ofInt_add]
  exact congrArg Int64.ofInt (by simp only [wordSize]; omega)

theorem ofNat_wordSize : Int64.ofNat wordSize = Int64.ofInt 8 := by decide

theorem addr_pred (k : Nat) : addr (k + 1) + Int64.ofNat wordSize = addr k := by
  rw [addr, addr, ofNat_wordSize, ← Int64.ofInt_add]
  exact congrArg Int64.ofInt (by simp only [wordSize]; omega)

theorem addr_succ (k : Nat) : addr k - Int64.ofNat wordSize = addr (k + 1) := by
  rw [addr, addr, ofNat_wordSize, ← Int64.ofInt_sub]
  exact congrArg Int64.ofInt (by simp only [wordSize]; omega)

theorem toNat_addr {k : Nat} (h : wordSize * k ≤ stackTop) :
    (addr k).toUInt64.toNat = stackTop - wordSize * k := by
  rw [addr, toNat_ofInt]
  simp only [wordSize, stackTop] at *
  omega

theorem toNat_addr_wrapped {k : Nat} (h : stackTop < wordSize * k) (hk : k < addressLimit) :
    (addr k).toUInt64.toNat = 2 ^ 64 + stackTop - wordSize * k := by
  rw [addr, toNat_ofInt]
  simp only [wordSize, stackTop, addressLimit] at *
  omega

theorem slot?_addr {i : Nat} (h : i < stackWords) : slot? (addr (i + 1)).toUInt64.toNat = some ⟨i, h⟩ := by
  rw [toNat_addr (by simp only [wordSize, stackTop, stackWords] at *; omega)]
  unfold slot?
  rw [dif_pos (by simp only [stackBottom, wordSize, stackTop, stackWords] at *; omega)]
  congr 2
  simp only [wordSize, stackTop, stackWords] at *
  omega

theorem address_of_slot? {address : Nat} {i : Fin stackWords} (h : slot? address = some i) :
    address = (addr (i.1 + 1)).toUInt64.toNat := by
  have hi := i.isLt
  rw [toNat_addr (by simp only [wordSize, stackTop, stackWords] at *; omega)]
  unfold slot? at h
  split at h
  · next hslot =>
    cases h
    simp only [stackBottom, stackTop, stackWords, wordSize] at hslot ⊢
    omega
  · cases h

theorem slot?_addr_none {i : Nat} (h : stackWords ≤ i) (hi : i + 1 < addressLimit) :
    slot? (addr (i + 1)).toUInt64.toNat = none := by
  unfold slot?
  rw [dif_neg]
  by_cases hw : wordSize * (i + 1) ≤ stackTop
  · rw [toNat_addr hw]
    simp only [stackBottom, wordSize, stackTop, stackWords] at *
    omega
  · rw [toNat_addr_wrapped (by omega) hi]
    simp only [stackBottom, wordSize, stackTop, stackWords, addressLimit] at *
    omega

theorem addr_aligned {k : Nat} (hk : k < addressLimit) (h : k % 2 = 0) :
    (addr k).toUInt64.toNat % stackAlignment = 0 := by
  by_cases hw : wordSize * k ≤ stackTop
  · rw [toNat_addr hw]
    simp only [stackAlignment, wordSize, stackTop] at *
    omega
  · rw [toNat_addr_wrapped (by omega) hk]
    simp only [stackAlignment, wordSize, stackTop, addressLimit] at *
    omega

/-- The check of a push: it notices a stack that runs over by a few words. -/
theorem addr_lt_stackBottom {k : Nat} (hk : wordSize * (k + 1) ≤ stackTop) :
    (addr (k + 1)).toUInt64.toNat < stackBottom ↔ stackWords ≤ k := by
  rw [toNat_addr hk]
  simp only [stackBottom, wordSize, stackTop, stackWords] at *
  omega

theorem not_addr_lt_stackBottom {k : Nat} (hk : k < stackWords) :
    ¬ (addr (k + 1)).toUInt64.toNat < stackBottom := by
  rw [addr_lt_stackBottom (by simp only [wordSize, stackTop, stackWords] at *; omega)]
  omega

end MicroC
