import Mathlib.Algebra.BigOperators.Intervals
import Mathlib.Algebra.Order.BigOperators.Group.Finset
import MicroC.Proofs.Peephole.FixedPoint

/-!
# The rounds of the optimiser

The optimiser goes on with its rounds until one changes nothing, and nothing in the loop counts them. What
bounds them is the weight of the module: a round takes at least as much off it as it makes changes, so on
every module, whatever its instructions look like, there is a round that finds nothing to change.

* `afterRounds`, `changes`: the blocks in front of a round, and how many changes that round makes.
* `exists_quiet`: there is a round without changes.
* `optimiseBlocks_of_lastRound`: the optimiser stops behind the first of them.
* **`optimise_rounds`**: how many rounds the optimiser makes.
-/

namespace MicroC.Module

open Finset

variable {rs : Reductions} {bs : List Block}

/-- The blocks behind the first `n` rounds. -/
def afterRounds (rs : Reductions) : Nat → List Block → List Block
  | 0, bs => bs
  | n + 1, bs => afterRounds rs n (roundBlocks rs bs).1

/-- How many changes round `n` makes, the first being round zero. -/
def changes (rs : Reductions) (n : Nat) (bs : List Block) : Nat := (roundBlocks rs (afterRounds rs n bs)).2.total

/-- Round `n` is the first one without changes. -/
structure LastRound (rs : Reductions) (n : Nat) (bs : List Block) : Prop where
  quiet : changes rs n bs = 0
  busy : ∀ k < n, 0 < changes rs k bs

/-! ## There is a last round -/

/-- All changes so far came off the weight. -/
theorem sum_changes_add_totalWeight_le (rs : Reductions) (n : Nat) (bs : List Block) :
    ∑ k ∈ range n, changes rs k bs + totalWeight (afterRounds rs n bs) ≤ totalWeight bs := by
  induction n generalizing bs with
  | zero => simp [afterRounds]
  | succ n ih =>
    have hround := weight_roundBlocks rs bs
    have hrest := ih (roundBlocks rs bs).1
    rw [sum_range_succ']
    change ∑ k ∈ range n, changes rs k (roundBlocks rs bs).1 + (roundBlocks rs bs).2.total
      + totalWeight (afterRounds rs n (roundBlocks rs bs).1) ≤ totalWeight bs
    omega

/-- Rounds that all change something are no more than the changes they make. -/
theorem le_sum_changes {n : Nat} (h : ∀ k < n, 0 < changes rs k bs) : n ≤ ∑ k ∈ range n, changes rs k bs := by
  calc n = ∑ _k ∈ range n, 1 := by rw [← card_eq_sum_ones, card_range]
    _ ≤ ∑ k ∈ range n, changes rs k bs := sum_le_sum fun k hk => h k (mem_range.1 hk)

/-- **There is a round without changes**: otherwise the weight would have to go on falling. -/
theorem exists_quiet (rs : Reductions) (bs : List Block) : ∃ n, changes rs n bs = 0 := by
  by_contra hnone
  have hbusy : ∀ k < totalWeight bs + 1, 0 < changes rs k bs := fun k _ =>
    Nat.pos_of_ne_zero fun hk => hnone ⟨k, hk⟩
  have hmany := le_sum_changes hbusy
  have hfew := sum_changes_add_totalWeight_le rs (totalWeight bs + 1) bs
  omega

theorem exists_lastRound (rs : Reductions) (bs : List Block) : ∃ n, LastRound rs n bs := by
  have h := exists_quiet rs bs
  exact ⟨Nat.find h, Nat.find_spec h, fun k hk => Nat.pos_of_ne_zero (Nat.find_min h hk)⟩

/-! ## The optimiser stops behind it -/

theorem LastRound.next {n : Nat} (h : LastRound rs (n + 1) bs) : LastRound rs n (roundBlocks rs bs).1 :=
  ⟨h.quiet, fun k hk => h.busy (k + 1) (Nat.succ_lt_succ hk)⟩

/-- **The optimiser makes the rounds up to the last one** and counts their changes. -/
theorem optimiseBlocks_of_lastRound {n : Nat} (h : LastRound rs n bs) :
    (optimiseBlocks rs bs).1 = afterRounds rs n bs ∧ (optimiseBlocks rs bs).2.rounds = n + 1 ∧
      (optimiseBlocks rs bs).2.total = ∑ k ∈ range n, changes rs k bs := by
  induction n generalizing bs with
  | zero =>
    have hquiet : (roundBlocks rs bs).2.total = 0 := h.quiet
    rw [optimiseBlocks, if_pos hquiet]
    exact ⟨(roundBlocks_eq_of_total hquiet).1, rfl, hquiet⟩
  | succ n ih =>
    have hbusy : (roundBlocks rs bs).2.total ≠ 0 := Nat.ne_of_gt (h.busy 0 (Nat.succ_pos n))
    obtain ⟨hblocks, hrounds, htotal⟩ := ih h.next
    rw [optimiseBlocks, if_neg hbusy]
    refine ⟨hblocks, ?_, ?_⟩
    · show 1 + (optimiseBlocks rs (roundBlocks rs bs).1).2.rounds = n + 1 + 1
      omega
    · rw [Stats.total_add, htotal, sum_range_succ']
      exact Nat.add_comm _ _

/-! ## How heavy a module is -/

theorem weight_le (code : List Instruction) : weight code ≤ 2 * code.length := by
  induction code with
  | nil => exact Nat.le_refl 0
  | cons i code ih =>
    have hi : i.weight ≤ 2 := by
      unfold Instruction.weight
      split <;> (try split) <;> omega
    rw [weight_cons, List.length_cons]
    omega

theorem totalWeight_le (bs : List Block) : totalWeight bs ≤ 2 * (bs.flatMap Block.code).length := by
  induction bs with
  | nil => exact Nat.le_refl 0
  | cons b bs ih =>
    have hb := weight_le b.code
    rw [totalWeight, List.flatMap_cons, List.length_append]
    omega

/-- **The rounds of the optimiser end.** On every module and with every choice of reductions there is a first
round that makes no change, and it leaves the blocks as they are; the optimiser stops behind it. So the rounds are
at most one more than the changes, and these at most two for each instruction. -/
theorem optimise_rounds (rs : Reductions) (m : Module) :
    ∃ n, LastRound rs n m.blocks ∧
      (roundBlocks rs (afterRounds rs n m.blocks)).1 = afterRounds rs n m.blocks ∧
      (m.optimise rs).1.blocks = afterRounds rs n m.blocks ∧
      (m.optimise rs).2.rounds = n + 1 ∧
      (m.optimise rs).2.total = ∑ k ∈ range n, changes rs k m.blocks ∧
      (m.optimise rs).2.rounds ≤ (m.optimise rs).2.total + 1 ∧
      (m.optimise rs).2.total ≤ 2 * m.instructionCount := by
  obtain ⟨n, hn⟩ := exists_lastRound rs m.blocks
  obtain ⟨hblocks, hrounds, htotal⟩ := optimiseBlocks_of_lastRound hn
  have hsame := (roundBlocks_eq_of_total (show (roundBlocks rs (afterRounds rs n m.blocks)).2.total = 0 from hn.quiet)).1
  have hle := le_sum_changes hn.busy
  have hweight := sum_changes_add_totalWeight_le rs n m.blocks
  have hcount : totalWeight m.blocks ≤ 2 * m.instructionCount := totalWeight_le m.blocks
  refine ⟨n, hn, hsame, hblocks, hrounds, htotal, ?_, ?_⟩
  · show (optimiseBlocks rs m.blocks).2.rounds ≤ (optimiseBlocks rs m.blocks).2.total + 1
    omega
  · show (optimiseBlocks rs m.blocks).2.total ≤ 2 * m.instructionCount
    omega

end MicroC.Module
