import Mathlib.Data.List.Forall2
import MicroC.Proofs.Peephole.Changes

/-!
# The optimiser keeps accounts

Instructions other than `nop`s, pushes, pops and moves last: they stay in their order, and all that can become of
one is that it adds or subtracts a constant in place of a register. What the optimiser reports is exactly what the
module has lost, and how many instructions took a constant.

* `Instruction.Keeps`: what may become of an instruction that lasts.
* `refilled`: how many additions and subtractions take another first operand.
* `Accounts`: what becomes of a few instructions, and the numbers reported for it.
* `Change.accounts`: every change is reported.
* **`optimise_accounts`**: so is all that the optimiser does.
-/

namespace MicroC

open Operand List

/-! ## Instructions that last -/

namespace Instruction

/-- No reduction makes such an instruction or takes it away. -/
def lasts (i : Instruction) : Bool :=
  i.opcode != .nop && i.opcode != .pushq && i.opcode != .popq && i.opcode != .movq

/-- What may become of an instruction that lasts: nothing at all, or an addition or subtraction of a constant in place
of a register. -/
def Keeps (i j : Instruction) : Prop :=
  i = j ∨ (i.opcode = .addq ∨ i.opcode = .subq) ∧ isRegister (i.operand 0) = true ∧
    (immediate? (j.operand 0)).isSome = true ∧ j = { i with operands := i.operands.set 0 (j.operand 0) }

/-- Whether an addition or subtraction takes another first operand. -/
def refills (i j : Instruction) : Bool :=
  (i.opcode == .addq || i.opcode == .subq) && i.operand 0 != j.operand 0

variable {i j k : Instruction}

theorem refills_self (i : Instruction) : i.refills i = false := by simp [refills]

theorem Keeps.trans (h : i.Keeps j) (h' : j.Keeps k) :
    i.Keeps k ∧ (i.refills k).toNat = (i.refills j).toNat + (j.refills k).toNat := by
  rcases h with rfl | ⟨hop, hr, hc, hj⟩
  · rw [refills_self, Bool.toNat_false, Nat.zero_add]
    exact ⟨h', rfl⟩
  · rcases h' with rfl | ⟨-, hr', -⟩
    · rw [refills_self, Bool.toNat_false, Nat.add_zero]
      exact ⟨.inr ⟨hop, hr, hc, hj⟩, rfl⟩
    · obtain ⟨w, hw⟩ := Option.isSome_iff_exists.1 hc
      rw [isRegister_of_immediate? hw] at hr'
      cases hr'

end Instruction

/-- How many additions and subtractions take another first operand. -/
def refilled (xs ys : List Instruction) : Nat := (xs.zip ys).countP fun p => p.1.refills p.2

section Refilled

variable {xs ys zs xs' ys' : List Instruction}

theorem refilled_cons (i j : Instruction) (xs ys : List Instruction) :
    refilled (i :: xs) (j :: ys) = refilled xs ys + (i.refills j).toNat := by
  rw [refilled, zip_cons_cons, countP_cons]
  cases i.refills j with
  | true => rfl
  | false => rfl

theorem refilled_self (xs : List Instruction) : refilled xs xs = 0 := by
  induction xs with
  | nil => rfl
  | cons i xs ih => rw [refilled_cons, ih, Instruction.refills_self, Bool.toNat_false]

theorem keeps_self (xs : List Instruction) : Forall₂ Instruction.Keeps xs xs :=
  forall₂_same.2 fun _ _ => .inl rfl

theorem refilled_append (h : Forall₂ Instruction.Keeps xs ys) :
    refilled (xs ++ xs') (ys ++ ys') = refilled xs ys + refilled xs' ys' := by
  rw [refilled, zip_append h.length_eq, countP_append]
  rfl

theorem keeps_trans (h : Forall₂ Instruction.Keeps xs ys) (h' : Forall₂ Instruction.Keeps ys zs) :
    Forall₂ Instruction.Keeps xs zs ∧ refilled xs zs = refilled xs ys + refilled ys zs := by
  induction h generalizing zs with
  | nil =>
    cases h'
    exact ⟨.nil, rfl⟩
  | @cons i j xs ys hij hrest ih =>
    cases h' with
    | @cons _ k _ zs hjk hrest' =>
    obtain ⟨hik, hcount⟩ := hij.trans hjk
    obtain ⟨hall, hcounts⟩ := ih hrest'
    refine ⟨.cons hik hall, ?_⟩
    rw [refilled_cons, refilled_cons, refilled_cons, hcount, hcounts]
    omega

end Refilled

/-- How many instructions have an opcode. -/
def occurrences (opcode : Opcode) (code : List Instruction) : Nat := code.countP (·.opcode == opcode)

/-- What becomes of a few instructions, and the numbers reported for it. -/
structure Accounts (xs ys : List Instruction) (s : Stats) : Prop where
  instructions : ys.length + s.nops = xs.length
  pushes : occurrences .pushq ys + s.pushPops = occurrences .pushq xs
  pops : occurrences .popq ys + s.pushPops = occurrences .popq xs
  keeps : Forall₂ Instruction.Keeps (xs.filter Instruction.lasts) (ys.filter Instruction.lasts)
  constants : refilled (xs.filter Instruction.lasts) (ys.filter Instruction.lasts) = s.constants

namespace Accounts

variable {xs ys zs xs' ys' : List Instruction} {s t : Stats}

theorem refl (xs : List Instruction) : Accounts xs xs {} :=
  ⟨rfl, rfl, rfl, keeps_self _, refilled_self _⟩

theorem trans (h : Accounts xs ys s) (h' : Accounts ys zs t) : Accounts xs zs (s.add t) := by
  obtain ⟨hkeeps, hcount⟩ := keeps_trans h.keeps h'.keeps
  have := h.instructions
  have := h'.instructions
  have := h.pushes
  have := h'.pushes
  have := h.pops
  have := h'.pops
  refine ⟨?_, ?_, ?_, hkeeps, ?_⟩ <;> simp only [Stats.add]
  · omega
  · omega
  · omega
  · rw [hcount, h.constants, h'.constants]

theorem append (h : Accounts xs ys s) (h' : Accounts xs' ys' t) : Accounts (xs ++ xs') (ys ++ ys') (s.add t) := by
  have hi := h.instructions
  have hi' := h'.instructions
  have hpush := h.pushes
  have hpush' := h'.pushes
  have hpop := h.pops
  have hpop' := h'.pops
  refine ⟨?_, ?_, ?_, ?_, ?_⟩
  · simp only [length_append, Stats.add]
    omega
  · simp only [occurrences, countP_append, Stats.add] at hpush hpush' ⊢
    omega
  · simp only [occurrences, countP_append, Stats.add] at hpop hpop' ⊢
    omega
  · rw [filter_append, filter_append]
    exact rel_append h.keeps h'.keeps
  · rw [filter_append, filter_append, refilled_append h.keeps, h.constants, h'.constants]
    rfl

end Accounts

section

variable {xs ys : List Instruction} {s : Stats}

/-- The accounts of a change that leaves the instructions that last as they are. -/
theorem accounts_of_lasting (hlasts : ys.filter Instruction.lasts = xs.filter Instruction.lasts)
    (hinstructions : ys.length + s.nops = xs.length)
    (hpushes : occurrences .pushq ys + s.pushPops = occurrences .pushq xs)
    (hpops : occurrences .popq ys + s.pushPops = occurrences .popq xs) (hconstants : s.constants = 0) :
    Accounts xs ys s := by
  refine ⟨hinstructions, hpushes, hpops, ?_, ?_⟩
  · rw [hlasts]
    exact keeps_self _
  · rw [hlasts, hconstants]
    exact refilled_self _

/-- A constant takes the place of a register in an instruction that lasts. -/
theorem keeps_of_takesConstant {i : Instruction} {register constant : String} {w : Int64}
    (hr : isRegister register = true) (hc : immediate? constant = some w) (h : takesConstant register i = true) :
    i.Keeps { i with operands := i.operands.set 0 constant } ∧
      i.refills { i with operands := i.operands.set 0 constant } = true := by
  simp only [takesConstant, Bool.and_eq_true, Bool.or_eq_true, beq_iff_eq] at h
  obtain ⟨⟨hop, rfl⟩, -⟩ := h
  have hfirst : ({ i with operands := i.operands.set 0 constant } : Instruction).operand 0 = constant := by
    cases hos : i.operands with
    | nil =>
      rw [Instruction.operand, hos] at hr
      cases hr
    | cons o os => rfl
  have hne : i.operand 0 ≠ constant := by
    intro heq
    rw [heq, isRegister_of_immediate? hc] at hr
    cases hr
  refine ⟨.inr ⟨hop, hr, ?_, ?_⟩, ?_⟩
  · rw [hfirst, hc]
    rfl
  · rw [hfirst]
  · rw [Instruction.refills, hfirst]
    simpa [hne] using hop

/-- **Every change is reported.** -/
theorem Change.accounts (h : Change xs ys s) : Accounts xs ys s := by
  cases h with
  | @drop i h =>
    have hop : i.opcode = .nop := isNop_iff.1 h
    refine accounts_of_lasting ?_ rfl ?_ ?_ rfl <;> simp [occurrences, Instruction.lasts, hop]
  | @join push pop window hpush hpop =>
    refine accounts_of_lasting ?_ ?_ ?_ ?_ rfl <;>
      simp [occurrences, Instruction.lasts, Instruction.nop, Instruction.joined, hpush, hpop]
  | @fold i register constant w hr hc hw h =>
    obtain ⟨hkeeps, hrefills⟩ := keeps_of_takesConstant hr hc h
    simp only [takesConstant, Bool.and_eq_true, Bool.or_eq_true, beq_iff_eq] at h
    have hlasts : i.lasts = true := by rcases h.1.1 with hop | hop <;> rw [Instruction.lasts, hop] <;> rfl
    have hlasts' : ({ i with operands := i.operands.set 0 constant } : Instruction).lasts = true := hlasts
    refine ⟨rfl, rfl, rfl, ?_, ?_⟩
    · rw [filter_cons_of_pos hlasts, filter_cons_of_pos hlasts']
      exact .cons hkeeps .nil
    · rw [filter_cons_of_pos hlasts, filter_cons_of_pos hlasts', filter_nil, refilled_cons, hrefills]
      rfl
  | @unload i hop =>
    refine accounts_of_lasting ?_ rfl ?_ ?_ rfl <;> simp [occurrences, Instruction.lasts, Instruction.nop, hop]
  | @still i h =>
    rw [isSelfMove, Bool.and_eq_true, beq_iff_eq] at h
    refine accounts_of_lasting ?_ rfl ?_ ?_ rfl <;> simp [occurrences, Instruction.lasts, Instruction.nop, h.1]

theorem Changes.accounts (h : Changes xs ys s) : Accounts xs ys s := by
  induction h with
  | refl code => exact .refl code
  | @step old new code s t before after hchange _ ih =>
    have hone := ((Accounts.refl before).append hchange.accounts).append (.refl after)
    rw [Stats.empty_add] at hone
    rw [Stats.add_comm]
    exact hone.trans ih

end

/-! ## Modules -/

/-- The instructions of a block that last. -/
def Block.lasting (b : Block) : List Instruction := b.code.filter Instruction.lasts

/-- What the optimiser keeps of a block. -/
structure Block.Keeps (b b' : Block) : Prop where
  name : b'.name = b.name
  comment : b'.comment = b.comment
  isGlobal : b'.isGlobal = b.isGlobal
  lasting : Forall₂ Instruction.Keeps b.lasting b'.lasting

theorem ChangesAll.keeps {bs bs' : List Block} {s : Stats} (h : ChangesAll bs bs' s) : Forall₂ Block.Keeps bs bs' := by
  induction h with
  | nil => exact .nil
  | cons hb _ ih => exact .cons ⟨rfl, rfl, rfl, hb.accounts.keeps⟩ ih

theorem ChangesAll.accounts {bs bs' : List Block} {s : Stats} (h : ChangesAll bs bs' s) :
    Accounts (bs.flatMap Block.code) (bs'.flatMap Block.code) s := by
  induction h with
  | nil => exact .refl []
  | cons hb _ ih => exact hb.accounts.append ih

/-- **The optimiser changes only what it reports.** The blocks stay in their order with their names, comments and
visibility, and the instructions of a block that are no `nop`s, pushes, pops or moves stay in theirs; all that can
become of one is an addition or subtraction of a constant in place of a register. The module has lost as many
instructions as `nop`s were dropped, and as many pushes and pops as were joined, and as many additions and
subtractions have another first operand as constants were folded. -/
theorem optimise_accounts (rs : Reductions) (m : Module) :
    Forall₂ Block.Keeps m.blocks (m.optimise rs).1.blocks ∧
      (m.optimise rs).1.instructionCount + (m.optimise rs).2.nops = m.instructionCount ∧
      occurrences .pushq (m.optimise rs).1.instructions + (m.optimise rs).2.pushPops =
        occurrences .pushq m.instructions ∧
      occurrences .popq (m.optimise rs).1.instructions + (m.optimise rs).2.pushPops =
        occurrences .popq m.instructions ∧
      refilled (m.instructions.filter Instruction.lasts) ((m.optimise rs).1.instructions.filter Instruction.lasts) =
        (m.optimise rs).2.constants := by
  have hchanges := Module.changesAll_optimise rs m
  obtain ⟨hinstructions, hpushes, hpops, -, hconstants⟩ := hchanges.accounts
  exact ⟨hchanges.keeps, hinstructions, hpushes, hpops, hconstants⟩

end MicroC
