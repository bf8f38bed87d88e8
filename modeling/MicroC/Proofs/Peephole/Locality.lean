import Mathlib.Algebra.BigOperators.Group.List.Basic
import Mathlib.Algebra.Ring.Nat
import MicroC.Proofs.Peephole.FixedPoint

/-!
# One block at a time

A round goes over all blocks, also over those that were done long ago, until no block changes any more. A block
at its fixed point counts nothing and stays as it is, so the rounds that it sits through do not show: what becomes
of a block does not depend on the others.

* `Stats.beside`: the changes of two runs add up, and the longer one tells the rounds.
* `roundBlocks_append`: a round over two lists of blocks.
* **`optimiseBlocks_append`**: the optimiser on two lists of blocks is the optimiser on each.
* **`optimise_blockwise`**: the optimiser on a module is the optimiser on each of its blocks alone.
-/

namespace MicroC

/-! ## Statistics of runs side by side -/

namespace Stats

variable {s t u v : Stats}

theorem eq_of_total (h : s.total = 0) : s = { rounds := s.rounds } := by
  obtain ⟨rounds, nops, pushPops, constants, selfMoves⟩ := s
  simp only [total, Nat.add_eq_zero_iff] at h
  obtain ⟨⟨⟨rfl, rfl⟩, rfl⟩, rfl⟩ := h
  rfl

/-- A round and the rounds behind it. -/
def roundThen (s t : Stats) : Stats := { s with rounds := 1 }.add t

/-- What two runs did side by side: the changes add up, and the longer one tells the rounds. -/
def beside (s t : Stats) : Stats := { s.add t with rounds := max s.rounds t.rounds }

theorem add_roundThen_beside (s t u v : Stats) :
    (s.add t).roundThen (u.beside v) = (s.roundThen u).beside (t.roundThen v) := by
  simp only [roundThen, beside, add, mk.injEq]
  omega

/-- Beside a run that goes on, a run that is done only counts its one round. -/
theorem roundThen_done_beside (hv : 0 < v.rounds) :
    (add {} t).roundThen (beside { rounds := 1 } v) = beside { rounds := 1 } (t.roundThen v) := by
  simp only [roundThen, beside, add, mk.injEq]
  omega

theorem roundThen_beside_done (hu : 0 < u.rounds) :
    (s.add {}).roundThen (u.beside { rounds := 1 }) = (s.roundThen u).beside { rounds := 1 } := by
  simp only [roundThen, beside, add, mk.injEq]
  omega

/-- What runs side by side did, told number by number. -/
theorem foldr_beside (ss : List Stats) (h : ∀ s ∈ ss, 0 < s.rounds) :
    ss.foldr beside { rounds := 1 } =
      { rounds := (ss.map rounds).max?.getD 1
        nops := (ss.map nops).sum
        pushPops := (ss.map pushPops).sum
        constants := (ss.map constants).sum
        selfMoves := (ss.map selfMoves).sum } := by
  induction ss with
  | nil => rfl
  | cons s ss ih =>
    obtain ⟨hs, hss⟩ := List.forall_mem_cons.1 h
    have hmax : max s.rounds ((ss.map rounds).max?.getD 1) = ((s :: ss).map rounds).max?.getD 1 := by
      rw [List.map_cons, List.max?_cons]
      cases (ss.map rounds).max? with
      | none => exact Nat.max_eq_left hs
      | some n => rfl
    rw [List.foldr_cons, ih hss, beside, hmax]
    simp only [add, List.map_cons, List.sum_cons]

end Stats

namespace Module

variable {rs : Reductions} {bs : List Block}

theorem roundBlocks_append (rs : Reductions) (xs ys : List Block) :
    roundBlocks rs (xs ++ ys) = ((roundBlocks rs xs).1 ++ (roundBlocks rs ys).1,
      (roundBlocks rs xs).2.add (roundBlocks rs ys).2) := by
  induction xs with
  | nil => simp only [List.nil_append, roundBlocks, Stats.add, Nat.zero_add]
  | cons x xs ih => simp only [List.cons_append, roundBlocks, ih, Stats.add, Nat.add_assoc]

/-! ## Runs that are done and runs that go on -/

theorem roundBlocks_of_quiet (h : (roundBlocks rs bs).2.total = 0) : roundBlocks rs bs = (bs, {}) := by
  refine Prod.ext (roundBlocks_eq_of_total h).1 ?_
  rw [Stats.eq_of_total h, rounds_roundBlocks]

theorem optimiseBlocks_of_quiet (h : (roundBlocks rs bs).2.total = 0) :
    optimiseBlocks rs bs = (bs, { rounds := 1 }) := by
  rw [optimiseBlocks, if_pos h, roundBlocks_of_quiet h]

theorem optimiseBlocks_of_busy (h : (roundBlocks rs bs).2.total ≠ 0) :
    optimiseBlocks rs bs = ((optimiseBlocks rs (roundBlocks rs bs).1).1,
      (roundBlocks rs bs).2.roundThen (optimiseBlocks rs (roundBlocks rs bs).1).2) := by
  rw [optimiseBlocks, if_neg h]
  rfl

theorem rounds_optimiseBlocks_pos (rs : Reductions) (bs : List Block) : 0 < (optimiseBlocks rs bs).2.rounds := by
  by_cases h : (roundBlocks rs bs).2.total = 0
  · rw [optimiseBlocks_of_quiet h]
    exact Nat.one_pos
  · rw [optimiseBlocks_of_busy h]
    exact Nat.lt_of_lt_of_le Nat.one_pos (Nat.le_add_right 1 _)

/-- **The optimiser on two lists of blocks is the optimiser on each.** The list that is done first sits through
the rounds of the other. -/
theorem optimiseBlocks_append (rs : Reductions) (xs ys : List Block) :
    optimiseBlocks rs (xs ++ ys) = ((optimiseBlocks rs xs).1 ++ (optimiseBlocks rs ys).1,
      (optimiseBlocks rs xs).2.beside (optimiseBlocks rs ys).2) := by
  generalize h : xs ++ ys = zs
  induction zs using optimiseBlocks.induct rs generalizing xs ys with
  | case1 zs r hquiet =>
    subst h
    have hboth : (roundBlocks rs xs).2.total = 0 ∧ (roundBlocks rs ys).2.total = 0 := by
      rwa [show r = _ from roundBlocks_append rs xs ys, Stats.total_add, Nat.add_eq_zero_iff] at hquiet
    rw [optimiseBlocks_of_quiet hquiet, optimiseBlocks_of_quiet hboth.1, optimiseBlocks_of_quiet hboth.2]
    rfl
  | case2 zs r hbusy _ _ _ ih =>
    subst h
    have hround := roundBlocks_append rs xs ys
    have hrest := ih (roundBlocks rs xs).1 (roundBlocks rs ys).1 (congrArg Prod.fst hround).symm
    rw [optimiseBlocks_of_busy hbusy, show optimiseBlocks rs (roundBlocks rs (xs ++ ys)).1 = _ from hrest, hround]
    by_cases hx : (roundBlocks rs xs).2.total = 0
    · have hy : (roundBlocks rs ys).2.total ≠ 0 := by
        rwa [show r = _ from hround, Stats.total_add, hx, Nat.zero_add] at hbusy
      rw [optimiseBlocks_of_busy hy, roundBlocks_of_quiet hx, optimiseBlocks_of_quiet hx,
        Stats.roundThen_done_beside (rounds_optimiseBlocks_pos rs _)]
    · by_cases hy : (roundBlocks rs ys).2.total = 0
      · rw [optimiseBlocks_of_busy hx, roundBlocks_of_quiet hy, optimiseBlocks_of_quiet hy,
          Stats.roundThen_beside_done (rounds_optimiseBlocks_pos rs _)]
      · rw [optimiseBlocks_of_busy hx, optimiseBlocks_of_busy hy, Stats.add_roundThen_beside]

/-! ## Blocks alone -/

theorem length_roundBlocks (rs : Reductions) (bs : List Block) : (roundBlocks rs bs).1.length = bs.length := by
  induction bs with
  | nil => rfl
  | cons b bs ih => exact congrArg (· + 1) ih

theorem length_optimiseBlocks (rs : Reductions) (bs : List Block) : (optimiseBlocks rs bs).1.length = bs.length := by
  induction bs using optimiseBlocks.induct rs with
  | case1 bs r hquiet => rw [optimiseBlocks_of_quiet hquiet]
  | case2 bs r hbusy _ _ _ ih =>
    rw [optimiseBlocks_of_busy hbusy]
    exact ih.trans (length_roundBlocks rs bs)

/-- What the optimiser makes of a block in a module of its own. -/
def optimiseAlone (rs : Reductions) (b : Block) : Module × Stats := optimise rs ⟨[b]⟩

/-- The blocks that come out of a module are those that come out of its blocks alone. -/
theorem map_singleton_optimiseBlocks (rs : Reductions) (bs : List Block) :
    (optimiseBlocks rs bs).1.map ([·]) = bs.map fun b => (optimiseAlone rs b).1.blocks := by
  induction bs with
  | nil =>
    rw [optimiseBlocks_of_quiet rfl]
    rfl
  | cons b bs ih =>
    obtain ⟨b', hb⟩ := List.length_eq_one_iff.1 (length_optimiseBlocks rs [b])
    have happend := optimiseBlocks_append rs [b] bs
    rw [List.singleton_append] at happend
    rw [happend, List.map_append, ih, hb, List.map_cons]
    exact congrArg (· :: _) hb.symm

/-- The changes of blocks add up, and the block that takes longest tells the rounds. -/
theorem stats_optimiseBlocks (rs : Reductions) (bs : List Block) :
    (optimiseBlocks rs bs).2 = (bs.map fun b => (optimiseAlone rs b).2).foldr Stats.beside { rounds := 1 } := by
  induction bs with
  | nil =>
    rw [optimiseBlocks_of_quiet rfl]
    rfl
  | cons b bs ih =>
    have happend := optimiseBlocks_append rs [b] bs
    rw [List.singleton_append] at happend
    rw [happend, ih]
    rfl

/-- **The optimiser works on one block at a time.** Every block becomes what it would become in a module of its
own, the changes are those of these modules together, and the rounds are those of the one that takes longest. -/
theorem optimise_blockwise (rs : Reductions) (m : Module) :
    (m.optimise rs).1.blocks.map ([·]) = m.blocks.map (fun b => (optimiseAlone rs b).1.blocks) ∧
      (m.optimise rs).2 =
        { rounds := (m.blocks.map fun b => (optimiseAlone rs b).2.rounds).max?.getD 1
          nops := (m.blocks.map fun b => (optimiseAlone rs b).2.nops).sum
          pushPops := (m.blocks.map fun b => (optimiseAlone rs b).2.pushPops).sum
          constants := (m.blocks.map fun b => (optimiseAlone rs b).2.constants).sum
          selfMoves := (m.blocks.map fun b => (optimiseAlone rs b).2.selfMoves).sum } := by
  have hpos : ∀ s ∈ m.blocks.map fun b => (optimiseAlone rs b).2, 0 < s.rounds := by
    simp only [List.forall_mem_map]
    exact fun b _ => rounds_optimiseBlocks_pos rs [b]
  have hstats := (stats_optimiseBlocks rs m.blocks).trans (Stats.foldr_beside _ hpos)
  simp only [List.map_map] at hstats
  exact ⟨map_singleton_optimiseBlocks rs m.blocks, hstats⟩

end Module

end MicroC
