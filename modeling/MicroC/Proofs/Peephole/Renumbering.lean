import Mathlib.Logic.Function.Iterate
import MicroC.Proofs.Emission.Labels
import MicroC.Proofs.Peephole.Optimiser
import MicroC.Proofs.Peephole.Rounds

/-!
# Reductions and labels

The reductions go by opcodes and by operands of instructions that are no jumps. So they do the same to code whose
labels have other numbers. They reduce every block by itself, so what becomes of a block does not depend on the
others.

* `Instruction.eq_renumber`: what can be told of an instruction without the target of a jump.
* `reduceRound_renumber`: a round over a block whose labels have other numbers.
* **`optimiseBlocks_eq_map`**: the optimiser goes on with each block by itself.
-/

namespace MicroC

open Operand Convention

/-! ## Instructions -/

namespace Instruction

variable {i : Instruction}

/-- What can be told of a jump without its target. -/
def Blind {α : Type} (f : Instruction → α) : Prop :=
  ∀ opcode os os' comment, opcode.isJump = true → f ⟨opcode, os, comment⟩ = f ⟨opcode, os', comment⟩

theorem Blind.renumber {α : Type} {f : Instruction → α} (hf : Blind f) (r : Nat → Nat) (i : Instruction) :
    f (i.renumber r) = f i := by
  cases h : i.opcode.isJump with
  | true =>
    rw [Instruction.renumber, if_pos h]
    exact hf i.opcode _ i.operands i.comment h
  | false => rw [renumber_of_not_jump r h]

theorem blind_reads : Blind reads := by
  intro opcode os os' comment h
  cases opcode <;> first | rfl | cases h

theorem blind_writes : Blind writes := by
  intro opcode os os' comment h
  cases opcode <;> first | rfl | cases h

theorem blind_constantLoad? : Blind constantLoad? := by
  intro opcode os os' comment h
  cases opcode <;> first | rfl | cases h

theorem blind_isSelfMove : Blind isSelfMove := by
  intro opcode os os' comment h
  cases opcode <;> first | rfl | cases h

theorem blind_takesConstant (register : String) : Blind (takesConstant register) := by
  intro opcode os os' comment h
  cases opcode <;> first | rfl | cases h

theorem blind_preserves (operand : String) : Blind (preserves operand) := by
  intro opcode os os' comment h
  cases opcode <;> first | rfl | cases h

theorem isNop_renumber (r : Nat → Nat) (i : Instruction) : (i.renumber r).isNop = i.isNop :=
  Blind.renumber (fun _ _ _ _ _ => rfl) r i

end Instruction

/-! ## Reductions -/

section Reductions

variable (r : Nat → Nat)

theorem removeNops_renumber (code : List Instruction) :
    (removeNops (code.map (Instruction.renumber r))).code = (removeNops code).code.map (Instruction.renumber r) := by
  simp only [removeNops, List.filter_map, Function.comp_def, Instruction.isNop_renumber]

theorem removeSelfMoves_renumber (code : List Instruction) :
    (removeSelfMoves (code.map (Instruction.renumber r))).code =
      (removeSelfMoves code).code.map (Instruction.renumber r) := by
  simp only [removeSelfMoves, List.map_map]
  refine List.map_congr_left fun i _ => ?_
  simp only [Function.comp, Instruction.blind_isSelfMove.renumber]
  split
  · rfl
  · rfl

theorem findPush_renumber (past : List Instruction) :
    findPush (past.map (Instruction.renumber r)) = (findPush past).map fun (window, push, before) =>
      (window.map (Instruction.renumber r), push, before.map (Instruction.renumber r)) := by
  induction past with
  | nil => rfl
  | cons i past ih =>
    rw [List.map_cons, findPush, findPush, ih, Instruction.opcode_renumber]
    split
    · next hop =>
      rw [Instruction.renumber_of_not_jump r (by rw [hop]; rfl)]
      rfl
    · simp only [Option.map_map, Function.comp_def, List.map_cons]
    · next hop =>
      rw [Instruction.renumber_of_not_jump r (by rw [hop]; rfl)]
      split
      · rfl
      · simp only [Option.map_map, Function.comp_def, List.map_cons,
          Instruction.renumber_of_not_jump r (show i.opcode.isJump = false by rw [hop]; rfl)]
    · rfl

theorem joinPop?_renumber (past : List Instruction) (pop : Instruction) (hpop : pop.opcode = .popq) :
    joinPop? (past.map (Instruction.renumber r)) (pop.renumber r) =
      (joinPop? past pop).map (List.map (Instruction.renumber r)) := by
  rw [Instruction.renumber_of_not_jump r (by rw [hpop]; rfl), joinPop?, joinPop?, findPush_renumber]
  cases findPush past with
  | none => rfl
  | some found =>
    obtain ⟨window, push, before⟩ := found
    simp only [Option.map_some, List.all_map, Function.comp_def, (Instruction.blind_preserves _).renumber]
    split
    · rw [Option.map_some, List.map_cons, List.map_append, List.map_cons]
      rfl
    · rfl

theorem combineFrom_renumber (past code : List Instruction) :
    (combineFrom (past.map (Instruction.renumber r)) (code.map (Instruction.renumber r))).code =
      (combineFrom past code).code.map (Instruction.renumber r) := by
  induction code generalizing past with
  | nil => rw [List.map_nil, combineFrom, combineFrom, List.map_reverse]
  | cons i code ih =>
    rw [List.map_cons, combineFrom, combineFrom, Instruction.opcode_renumber]
    by_cases hop : i.opcode = .popq
    · rw [if_pos hop, if_pos hop, joinPop?_renumber r past i hop]
      cases joinPop? past i with
      | none => exact ih (i :: past)
      | some joined => exact ih joined
    · rw [if_neg hop, if_neg hop]
      exact ih (i :: past)

theorem combinePushPop_renumber (code : List Instruction) :
    (combinePushPop (code.map (Instruction.renumber r))).code =
      (combinePushPop code).code.map (Instruction.renumber r) := combineFrom_renumber r [] code

/-- Whether a register is used does not depend on labels. -/
theorem foldUses_renumber (register constant : String) (code : List Instruction) :
    foldUses register constant (code.map (Instruction.renumber r)) =
      { foldUses register constant code with
        code := (foldUses register constant code).code.map (Instruction.renumber r) } := by
  induction code with
  | nil => rfl
  | cons i rest ih =>
    rw [List.map_cons, foldUses, foldUses, Instruction.isNop_renumber,
      (Instruction.blind_takesConstant register).renumber, ih]
    split
    · rfl
    · split
      · next htakes =>
        simp only [takesConstant, Bool.and_eq_true, Bool.or_eq_true, beq_iff_eq] at htakes
        have hno : i.opcode.isJump = false := by
          rcases htakes.1.1 with hop | hop <;> rw [hop] <;> rfl
        have hfolded : Instruction.renumber r { i with operands := i.operands.set 0 constant } = _ :=
          Instruction.renumber_of_not_jump r hno
        rw [Instruction.renumber_of_not_jump r hno, List.map_cons, hfolded]
      · simp only [Instruction.opcode_renumber, Instruction.blind_reads.renumber, Instruction.blind_writes.renumber]
        split <;> try rfl
        split <;> rfl

theorem foldConstants_renumber (code : List Instruction) :
    (foldConstants (code.map (Instruction.renumber r))).code =
      (foldConstants code).code.map (Instruction.renumber r) := by
  fun_induction foldConstants code with
  | case1 => rw [List.map_nil, foldConstants]
  | case2 i rest hload _ ih =>
    rw [List.map_cons, foldConstants, Instruction.blind_constantLoad?.renumber, hload]
    exact congrArg (i.renumber r :: ·) ih
  | case3 i rest register constant hload u _ ih =>
    rw [List.map_cons, foldConstants, Instruction.blind_constantLoad?.renumber, hload]
    dsimp only
    rw [foldUses_renumber, ih, List.map_cons, apply_ite (Instruction.renumber r)]
    rfl

theorem reduceIf_renumber (allowed : Bool) {reduce : List Instruction → Reduced}
    (h : ∀ code, (reduce (code.map (Instruction.renumber r))).code =
      (reduce code).code.map (Instruction.renumber r)) (code : List Instruction) :
    (reduceIf allowed reduce (code.map (Instruction.renumber r))).code =
      (reduceIf allowed reduce code).code.map (Instruction.renumber r) := by
  cases allowed with
  | true => exact h code
  | false => rfl

/-- **A round does the same to code whose labels have other numbers.** -/
theorem reduceRound_renumber (rs : Reductions) (code : List Instruction) :
    (reduceRound rs (code.map (Instruction.renumber r))).1 =
      (reduceRound rs code).1.map (Instruction.renumber r) := by
  simp only [reduceRound]
  rw [reduceIf_renumber r _ (removeNops_renumber r), reduceIf_renumber r _ (combinePushPop_renumber r),
    reduceIf_renumber r _ (foldConstants_renumber r), reduceIf_renumber r _ (removeSelfMoves_renumber r)]

theorem reduceBlock_renumber (rs : Reductions) :
    Function.Commute (reduceBlock rs) (Block.renumber r) := by
  intro b
  simp only [reduceBlock, Block.mapCode, Block.renumber, reduceRound_renumber]

end Reductions

/-! ## Blocks one by one -/

section Blocks

variable {rs : Reductions} {bs : List Block}

@[simp] theorem name_reduceBlock (b : Block) : (reduceBlock rs b).name = b.name := rfl

theorem afterRounds_eq_map (rs : Reductions) (n : Nat) (bs : List Block) :
    Module.afterRounds rs n bs = bs.map (reduceBlock rs)^[n] := by
  induction n generalizing bs with
  | zero => exact (List.map_id bs).symm
  | succ n ih => rw [Module.afterRounds, roundBlocks_fst, ih, List.map_map, Function.iterate_succ]

/-- **The optimiser goes on with each block by itself**, and more rounds than it makes do nothing. -/
theorem optimiseBlocks_eq_map (rs : Reductions) (bs : List Block) :
    ∃ k, ∀ n, k ≤ n → (Module.optimiseBlocks rs bs).1 = bs.map (reduceBlock rs)^[n] := by
  obtain ⟨k, hk⟩ := Module.exists_lastRound rs bs
  obtain ⟨hblocks, -⟩ := Module.optimiseBlocks_of_lastRound hk
  have hstay : (Module.afterRounds rs k bs).map (reduceBlock rs) = Module.afterRounds rs k bs := by
    rw [← roundBlocks_fst]
    exact (Module.roundBlocks_eq_of_total hk.quiet).1
  refine ⟨k, fun n hn => ?_⟩
  rw [hblocks]
  induction n, hn using Nat.le_induction with
  | base => exact afterRounds_eq_map rs k bs
  | succ n _ ih => rw [Function.iterate_succ', ← List.map_map, ← ih, hstay]

end Blocks

end MicroC
