import MicroC.Proofs.Peephole.Changes
import MicroC.Proofs.Peephole.Constants

/-!
# Instructions that can be encoded

The machine takes an instruction with any operands, but the target has an encoding only for some: not for two
operands in memory, not for an immediate that is written to, and not for a wide immediate unless it is moved to a
register. No run tells the difference. What the optimiser makes of instructions with an encoding has one as well.

* `Instruction.Encodable`, `Module.Encodable`: instructions and modules that can be encoded.
* `Change.encodable`: a change of the optimiser.
* **`Module.Encodable.optimise`**: all of it.
-/

namespace MicroC

open Operand

/-! ## Operands -/

theorem immediate?_empty : immediate? "" = none := rfl

theorem immediate?_of_toList {o : String} {c : Char} {cs : List Char} (h : o.toList = c :: cs) (hc : c ≠ '$') :
    immediate? o = none := by
  rw [immediate?, h]
  split
  · next heq =>
    cases heq
    exact absurd rfl hc
  · rfl

theorem isMemory_of_immediate? {o : String} {w : Int64} (h : immediate? o = some w) : isMemory o = false :=
  (arg?_tells (arg?_of_immediate? h)).isMemory

/-! ## Instructions -/

namespace Instruction

/-- An instruction with an encoding. -/
structure Encodable (i : Instruction) : Prop where
  /-- At most one operand is in memory. -/
  memory : i.operands.countP isMemory ≤ 1
  /-- What is popped or negated is no immediate. -/
  place : i.opcode = .popq ∨ i.opcode = .negq → immediate? (i.operand 0) = none
  /-- The second operand is no immediate. -/
  second : immediate? (i.operand 1) = none
  /-- Only a move to a register takes an immediate of more than 32 bits. -/
  wide : ∀ n w, immediate? (i.operand n) = some w →
    fitsImmediate w = true ∨ n = 0 ∧ i.opcode = .movq ∧ isRegister (i.operand 1) = true

instance (i : Instruction) : Decidable i.Encodable :=
  decidable_of_iff (i.operands.countP isMemory ≤ 1 ∧
      (i.opcode = .popq ∨ i.opcode = .negq → immediate? (i.operand 0) = none) ∧ immediate? (i.operand 1) = none ∧
      ∀ n < i.operands.length, (immediate? (i.operand n)).all fitsImmediate = true ∨
        n = 0 ∧ i.opcode = .movq ∧ isRegister (i.operand 1) = true) <| by
    refine ⟨fun ⟨hmem, hplace, hsecond, hwide⟩ => ⟨hmem, hplace, hsecond, fun n w hw => ?_⟩,
      fun h => ⟨h.memory, h.place, h.second, fun n _ => ?_⟩⟩
    · by_cases hn : n < i.operands.length
      · have := hwide n hn
        rwa [hw] at this
      · rw [operand, List.getD_eq_getElem?_getD, List.getElem?_eq_none (Nat.le_of_not_lt hn)] at hw
        cases hw
    · cases hw : immediate? (i.operand n) with
      | none => exact .inl rfl
      | some w => exact h.wide n w hw

example : ¬ Encodable ⟨.pushq, ["$4294967296"], none⟩ ∧ Encodable ⟨.movq, ["$4294967296", "%rax"], none⟩ := by
  decide +kernel

variable {i : Instruction} {o src dst : String}

/-- Registers and labels are no obstacle. -/
theorem encodable_of_plain (h : ∀ o ∈ i.operands, isMemory o = false ∧ immediate? o = none) : i.Encodable := by
  have hnone : ∀ n, immediate? (i.operand n) = none := fun n => by
    rw [operand, List.getD_eq_getElem?_getD]
    cases ho : i.operands[n]? with
    | none => exact immediate?_empty
    | some o => exact (h o (List.mem_of_getElem? ho)).2
  refine ⟨?_, fun _ => hnone 0, hnone 1, fun n w hw => ?_⟩
  · rw [List.countP_eq_zero.2 fun o ho => by simp [(h o ho).1]]
    exact Nat.zero_le 1
  · rw [hnone] at hw
    cases hw

theorem encodable_of_one (h : i.operands = [o]) (hplace : i.opcode = .popq ∨ i.opcode = .negq → immediate? o = none)
    (hwide : ∀ w, immediate? o = some w → fitsImmediate w = true) : i.Encodable := by
  have h0 : i.operand 0 = o := by rw [operand, h]; rfl
  have hmore : ∀ n, immediate? (i.operand (n + 1)) = none := fun n => by
    rw [operand, h]
    exact immediate?_empty
  refine ⟨?_, fun hop => h0 ▸ hplace hop, hmore 0, fun n w hw => ?_⟩
  · rw [h]
    exact List.countP_le_length
  · cases n with
    | zero => exact .inl (hwide w (h0 ▸ hw))
    | succ n =>
      rw [hmore] at hw
      cases hw

theorem encodable_of_two (h : i.operands = [src, dst]) (hmem : ¬ (isMemory src = true ∧ isMemory dst = true))
    (hplace : ¬ (i.opcode = .popq ∨ i.opcode = .negq)) (hdst : immediate? dst = none)
    (hwide : ∀ w, immediate? src = some w → fitsImmediate w = true ∨ i.opcode = .movq ∧ isRegister dst = true) :
    i.Encodable := by
  have h0 : i.operand 0 = src := by rw [operand, h]; rfl
  have h1 : i.operand 1 = dst := by rw [operand, h]; rfl
  have hmore : ∀ n, immediate? (i.operand (n + 2)) = none := fun n => by
    rw [operand, h]
    exact immediate?_empty
  refine ⟨?_, fun hop => absurd hop hplace, h1 ▸ hdst, fun n w hw => ?_⟩
  · rw [h, List.countP_cons, List.countP_singleton]
    split <;> split <;> first | omega | exact absurd ⟨‹_›, ‹_›⟩ hmem
  · match n with
    | 0 => exact (hwide w (h0 ▸ hw)).imp id fun hmove => ⟨rfl, hmove.1, h1 ▸ hmove.2⟩
    | 1 =>
      rw [h1, hdst] at hw
      cases hw
    | n + 2 =>
      rw [hmore] at hw
      cases hw

theorem encodable_nop : nop.Encodable := encodable_of_plain nofun

end Instruction

/-! ## Changes -/

section Changes

variable {i push pop : Instruction} {register constant : String} {w : Int64}

/-- A push has no wide immediate and a pop no immediate at all, so their move has no wide one. -/
theorem Instruction.Encodable.joined (hpush : push.Encodable) (hpop : pop.Encodable) (hop : push.opcode = .pushq)
    (hop' : pop.opcode = .popq) (hmem : ¬ (isMemory (push.operand 0) = true ∧ isMemory (pop.operand 0) = true)) :
    (push.joined pop).Encodable := by
  refine encodable_of_two rfl hmem (by rintro (⟨⟨⟩⟩ | ⟨⟨⟩⟩)) (hpop.place (.inl hop')) fun w hw => ?_
  rcases hpush.wide 0 w hw with hfits | ⟨-, hmove, -⟩
  · exact .inl hfits
  · rw [hop] at hmove
    cases hmove

/-- A constant that takes the place of a register is narrow, and not in memory. -/
theorem Instruction.Encodable.folded (h : i.Encodable) (hr : isRegister register = true)
    (hc : immediate? constant = some w) (hw : fitsImmediate w = true) (htakes : takesConstant register i = true) :
    Encodable { i with operands := i.operands.set 0 constant } := by
  simp only [takesConstant, Bool.and_eq_true, Bool.or_eq_true, beq_iff_eq] at htakes
  obtain ⟨⟨hop, hsrc⟩, -⟩ := htakes
  obtain ⟨opcode, operands, comment⟩ := i
  cases operands with
  | nil =>
    rw [← hsrc] at hr
    cases hr
  | cons src rest =>
    refine ⟨?_, fun hplace => ?_, h.second, fun n v hv => ?_⟩
    · have hmem := h.memory
      rw [List.countP_cons] at hmem
      rw [List.set_cons_zero, List.countP_cons_of_neg (by simp [isMemory_of_immediate? hc])]
      omega
    · rcases hop with rfl | rfl <;> rcases hplace with hplace | hplace <;> cases hplace
    · cases n with
      | zero =>
        obtain rfl : w = v := Option.some.inj (hc.symm.trans hv)
        exact .inl hw
      | succ n => exact .inl ((h.wide (n + 1) v hv).resolve_right fun hmove => absurd hmove.1 (Nat.succ_ne_zero n))

/-- **A change keeps instructions encodable.** -/
theorem Change.encodable {old new : List Instruction} {s : Stats} (h : Change old new s)
    (hold : ∀ i ∈ old, i.Encodable) : ∀ i ∈ new, i.Encodable := by
  cases h with
  | drop => nofun
  | @join push pop window hpush hpop hmem =>
    simp only [List.cons_append, List.mem_cons, List.mem_append, List.not_mem_nil, or_false] at hold ⊢
    rintro i (rfl | hi | rfl)
    · exact Instruction.encodable_nop
    · exact hold i (.inr (.inl hi))
    · exact (hold push (.inl rfl)).joined (hold pop (.inr (.inr rfl))) hpush hpop hmem
  | fold hr hc hw htakes =>
    rw [List.forall_mem_singleton] at hold ⊢
    exact hold.folded hr hc hw htakes
  | unload | still =>
    rw [List.forall_mem_singleton]
    exact Instruction.encodable_nop

theorem Changes.encodable {old new : List Instruction} {s : Stats} (h : Changes old new s)
    (hold : ∀ i ∈ old, i.Encodable) : ∀ i ∈ new, i.Encodable := by
  induction h with
  | refl => exact hold
  | step before after hchange _ ih =>
    simp only [List.forall_mem_append] at hold ih
    exact ih ⟨⟨hold.1.1, hchange.encodable hold.1.2⟩, hold.2⟩

theorem ChangesAll.encodable {bs cs : List Block} {s : Stats} (h : ChangesAll bs cs s)
    (hold : ∀ b ∈ bs, ∀ i ∈ b.code, i.Encodable) : ∀ b ∈ cs, ∀ i ∈ b.code, i.Encodable := by
  induction h with
  | nil => nofun
  | cons hb _ ih =>
    rw [List.forall_mem_cons] at hold ⊢
    exact ⟨hb.encodable hold.1, ih hold.2⟩

end Changes

/-! ## Modules -/

namespace Module

/-- A module with an encoding. -/
def Encodable (m : Module) : Prop := ∀ i ∈ m.instructions, i.Encodable

theorem encodable_iff {m : Module} : m.Encodable ↔ ∀ b ∈ m.blocks, ∀ i ∈ b.code, i.Encodable := by
  simp only [Encodable, instructions, List.forall_mem_flatMap]

/-- **The optimiser keeps a module encodable.** -/
theorem Encodable.optimise {m : Module} (h : m.Encodable) (rs : Reductions) : (m.optimise rs).1.Encodable :=
  encodable_iff.2 ((changesAll_optimise rs m).encodable (encodable_iff.1 h))

end Module

end MicroC
