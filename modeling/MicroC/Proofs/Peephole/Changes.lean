import MicroC.Proofs.Peephole.FixedPoint

/-!
# What the optimiser can do

All that the optimiser does to a block is a sequence of changes of five kinds, each of them counted once or not at
all. Whatever no change of these kinds can break, the optimiser cannot break either.

* `Change`: a change of a few instructions, and what is counted for it.
* `Changes`: changes one after the other, anywhere in a block.
* `changes_reduceRound`: a round of the reductions.
* `ChangesAll`: changes of the blocks of a module.
* **`changesAll_optimise`**: the optimiser makes changes and counts them.
-/

namespace MicroC

open Operand

/-! ## Statistics -/

namespace Stats

theorem empty_add (s : Stats) : add {} s = s := by simp only [add, Nat.zero_add]

theorem add_comm (s t : Stats) : s.add t = t.add s := by simp only [add, Nat.add_comm]

theorem add_right_comm (s t u : Stats) : (s.add t).add u = (s.add u).add t := by
  simp only [add, Nat.add_right_comm]

theorem add_add_add_comm (s t u v : Stats) : (s.add t).add (u.add v) = (s.add u).add (t.add v) := by
  simp only [add, mk.injEq]
  omega

/-- The changes without the rounds. -/
def counts (s : Stats) : Stats := { s with rounds := 0 }

end Stats

/-! ## Changes -/

/-- A move that does the work of a push and a pop. -/
def Instruction.joined (push pop : Instruction) : Instruction where
  opcode := .movq
  operands := [push.operand 0, pop.operand 0]
  comment := push.comment

/-- A change of a few instructions, and what is counted for it. -/
inductive Change : List Instruction → List Instruction → Stats → Prop
  /-- An instruction without effect goes. -/
  | drop {i : Instruction} (h : i.isNop = true) : Change [i] [] { nops := 1 }
  /-- A push and a pop become a move. -/
  | join {push pop : Instruction} (window : List Instruction) (hpush : push.opcode = .pushq)
      (hpop : pop.opcode = .popq) (h : ¬ (isMemory (push.operand 0) = true ∧ isMemory (pop.operand 0) = true)) :
      Change (push :: window ++ [pop]) (.nop :: window ++ [push.joined pop]) { pushPops := 1 }
  /-- A constant takes the place of a register. -/
  | fold {i : Instruction} {register constant : String} {w : Int64} (hr : isRegister register = true)
      (hc : immediate? constant = some w) (hw : fitsImmediate w = true) (h : takesConstant register i = true) :
      Change [i] [{ i with operands := i.operands.set 0 constant }] { constants := 1 }
  /-- A load of a constant that nobody needs goes. -/
  | unload {i : Instruction} (h : i.opcode = .movq) : Change [i] [.nop] {}
  /-- A move to the same place goes. -/
  | still {i : Instruction} (h : isSelfMove i = true) : Change [i] [.nop] { selfMoves := 1 }

/-- Changes one after the other, anywhere in a block. -/
inductive Changes : List Instruction → List Instruction → Stats → Prop
  | refl (code : List Instruction) : Changes code code {}
  | step {old new code : List Instruction} {s t : Stats} (before after : List Instruction) (h : Change old new s)
      (hrest : Changes (before ++ new ++ after) code t) : Changes (before ++ old ++ after) code (t.add s)

namespace Changes

variable {xs ys zs : List Instruction} {s t : Stats}

theorem trans (h : Changes xs ys s) (h' : Changes ys zs t) : Changes xs zs (s.add t) := by
  induction h with
  | refl code => rwa [Stats.empty_add]
  | step before after hchange _ ih =>
    rw [Stats.add_right_comm]
    exact .step before after hchange (ih h')

theorem within (before after : List Instruction) (h : Changes xs ys s) :
    Changes (before ++ xs ++ after) (before ++ ys ++ after) s := by
  induction h with
  | refl code => exact .refl _
  | step front back hchange _ ih =>
    have hstep := step (before ++ front) (back ++ after) hchange (by simpa only [List.append_assoc] using ih)
    simpa only [List.append_assoc] using hstep

theorem cons (i : Instruction) (h : Changes xs ys s) : Changes (i :: xs) (i :: ys) s := by
  have hin := h.within [i] []
  rwa [List.append_nil, List.append_nil] at hin

theorem cons_of_change {i : Instruction} (hi : Change [i] zs s) (h : Changes xs ys t) :
    Changes (i :: xs) (zs ++ ys) (t.add s) := by
  have hbehind := h.within zs []
  rw [List.append_nil, List.append_nil] at hbehind
  exact .step [] xs hi hbehind

end Changes

/-! ## Reductions -/

section Reductions

variable {code past : List Instruction}

theorem changes_removeNops (code : List Instruction) :
    Changes code (removeNops code).code { nops := (removeNops code).count } := by
  induction code with
  | nil => exact .refl []
  | cons i code ih =>
    simp only [removeNops] at ih ⊢
    by_cases hnop : i.isNop = true
    · rw [List.filter_cons_of_neg (by simp [hnop]), List.countP_cons_of_pos hnop]
      exact ih.cons_of_change (.drop hnop)
    · rw [List.filter_cons_of_pos (by simp [hnop]), List.countP_cons_of_neg hnop]
      exact ih.cons i

theorem changes_removeSelfMoves (code : List Instruction) :
    Changes code (removeSelfMoves code).code { selfMoves := (removeSelfMoves code).count } := by
  induction code with
  | nil => exact .refl []
  | cons i code ih =>
    simp only [removeSelfMoves] at ih ⊢
    rw [List.map_cons]
    by_cases hself : isSelfMove i = true
    · rw [if_pos hself, List.countP_cons_of_pos hself]
      exact ih.cons_of_change (.still hself)
    · rw [if_neg hself, List.countP_cons_of_neg hself]
      exact ih.cons i

/-! ### Pushes and pops -/

/-- A pop that is joined with its push is one change. -/
theorem change_of_joinPop? {joined : List Instruction} {pop : Instruction} (hpop : pop.opcode = .popq)
    (h : joinPop? past pop = some joined) : ∃ before old new, past.reverse ++ [pop] = before ++ old ∧
      joined.reverse = before ++ new ∧ Change old new { pushPops := 1 } := by
  unfold joinPop? at h
  split at h
  · cases h
  · next window push before hfind =>
    obtain ⟨rfl, hpush⟩ := eq_of_findPush hfind
    dsimp only at h
    split at h
    · next hall =>
      cases h
      have hmem : ¬ (isMemory (push.operand 0) = true ∧ isMemory (pop.operand 0) = true) := by
        rintro ⟨hsrc, hdst⟩
        rw [hsrc, hdst, Bool.and_eq_true] at hall
        cases hall.2
      refine ⟨before.reverse, _, _, ?_, ?_, .join window.reverse hpush hpop hmem⟩
      · simp only [List.reverse_append, List.reverse_cons, List.append_assoc, List.cons_append, List.nil_append]
      · simp only [List.reverse_append, List.reverse_cons, List.append_assoc, List.cons_append, List.nil_append]
        rfl
    · cases h

theorem changes_combineFrom (past code : List Instruction) :
    Changes (past.reverse ++ code) (combineFrom past code).code { pushPops := (combineFrom past code).count } := by
  fun_induction combineFrom past code with
  | case1 past =>
    rw [List.append_nil]
    exact .refl _
  | case2 past i rest joined h r ih =>
    split at h
    · next hpop =>
      obtain ⟨before, old, new, hold, hnew, hchange⟩ := change_of_joinPop? hpop h
      rw [hnew] at ih
      have hstep := Changes.step before rest hchange ih
      rwa [← hold, List.append_assoc, List.singleton_append] at hstep
    · cases h
  | case3 past i rest h ih =>
    rwa [List.reverse_cons, List.append_assoc, List.singleton_append] at ih

theorem changes_combinePushPop (code : List Instruction) :
    Changes code (combinePushPop code).code { pushPops := (combinePushPop code).count } := changes_combineFrom [] code

/-! ### Constants -/

section Constants

variable {register constant : String} {w : Int64}

theorem changes_foldUses (hr : isRegister register = true) (hc : immediate? constant = some w)
    (hw : fitsImmediate w = true) (code : List Instruction) :
    Changes code (foldUses register constant code).code
      { constants := (foldUses register constant code).folded } := by
  fun_induction foldUses register constant code with
  | case1 => exact .refl []
  | case2 i rest _ u ih => exact ih.cons i
  | case3 i rest _ htakes u ih =>
    exact ih.cons_of_change (.fold hr hc hw htakes)
  | case11 i rest _ _ _ _ _ _ _ _ _ _ u ih => exact ih.cons i
  | _ => exact .refl _

end Constants

theorem changes_foldConstants (code : List Instruction) :
    Changes code (foldConstants code).code { constants := (foldConstants code).count } := by
  fun_induction foldConstants code with
  | case1 => exact .refl []
  | case2 i rest _ r ih => exact ih.cons i
  | case3 i rest register constant hload u r ih =>
    obtain ⟨hmove, -, -, hr, w, hc, hw⟩ := constantLoad?_spec hload
    have hrest : Changes rest r.code { constants := u.folded + r.count } :=
      (changes_foldUses hr hc hw rest).trans ih
    dsimp only
    split
    · exact hrest.cons_of_change (.unload hmove)
    · exact hrest.cons i

end Reductions

/-! ## Rounds -/

section Rounds

variable {rs : Reductions}

theorem changes_reduceIf (allowed : Bool) {reduce : List Instruction → Reduced} (count : Nat → Stats)
    (hreduce : ∀ code, Changes code (reduce code).code (count (reduce code).count)) (hzero : count 0 = {})
    (code : List Instruction) :
    Changes code (reduceIf allowed reduce code).code (count (reduceIf allowed reduce code).count) := by
  cases allowed with
  | true => exact hreduce code
  | false =>
    rw [show (reduceIf false reduce code).count = 0 from rfl, hzero]
    exact .refl code

/-- **A round makes changes, and it counts them.** -/
theorem changes_reduceRound (rs : Reductions) (code : List Instruction) :
    Changes code (reduceRound rs code).1 (reduceRound rs code).2 := by
  have hnops := changes_reduceIf rs.nops (fun n => { nops := n }) changes_removeNops rfl
  have hpops := changes_reduceIf rs.pushPops (fun n => { pushPops := n }) changes_combinePushPop rfl
  have hconstants := changes_reduceIf rs.constants (fun n => { constants := n }) changes_foldConstants rfl
  have hmoves := changes_reduceIf rs.selfMoves (fun n => { selfMoves := n }) changes_removeSelfMoves rfl
  have hall := (((hnops code).trans (hpops _)).trans (hconstants _)).trans (hmoves _)
  simp only [Stats.add, Nat.zero_add, Nat.add_zero] at hall
  exact hall

/-! ## Blocks -/

/-- Changes of the instructions of blocks. -/
inductive ChangesAll : List Block → List Block → Stats → Prop
  | nil : ChangesAll [] [] {}
  | cons {b : Block} {code : List Instruction} {bs bs' : List Block} {s t : Stats} (h : Changes b.code code s)
      (hrest : ChangesAll bs bs' t) : ChangesAll (b :: bs) ({ b with code } :: bs') (s.add t)

namespace ChangesAll

variable {bs cs ds : List Block} {s t : Stats}

theorem trans (h : ChangesAll bs cs s) (h' : ChangesAll cs ds t) : ChangesAll bs ds (s.add t) := by
  induction h generalizing ds t with
  | nil =>
    cases h'
    exact .nil
  | cons hb _ ih =>
    cases h' with
    | cons hb' hrest' =>
      rw [Stats.add_add_add_comm]
      exact .cons (hb.trans hb') (ih hrest')

end ChangesAll

namespace Module

theorem changesAll_roundBlocks (rs : Reductions) (bs : List Block) :
    ChangesAll bs (roundBlocks rs bs).1 (roundBlocks rs bs).2 := by
  induction bs with
  | nil => exact .nil
  | cons b bs ih => exact .cons (changes_reduceRound rs b.code) ih

theorem changesAll_optimiseBlocks (rs : Reductions) (bs : List Block) :
    ChangesAll bs (optimiseBlocks rs bs).1 (optimiseBlocks rs bs).2.counts := by
  have hround (bs : List Block) : { (roundBlocks rs bs).2 with rounds := 0 } = (roundBlocks rs bs).2 := by
    rw [← rounds_roundBlocks bs]
  fun_induction optimiseBlocks rs bs with
  | case1 bs r hquiet =>
    show ChangesAll bs (roundBlocks rs bs).1 { (roundBlocks rs bs).2 with rounds := 0 }
    rw [hround]
    exact changesAll_roundBlocks rs bs
  | case2 bs r hbusy bs' t heq ih =>
    rw [heq] at ih
    have hfirst := changesAll_roundBlocks rs bs
    rw [← hround] at hfirst
    exact hfirst.trans ih

/-- **The optimiser makes changes, and it counts them.** -/
theorem changesAll_optimise (rs : Reductions) (m : Module) :
    ChangesAll m.blocks (m.optimise rs).1.blocks (m.optimise rs).2.counts := changesAll_optimiseBlocks rs m.blocks

end Module

end Rounds

end MicroC
