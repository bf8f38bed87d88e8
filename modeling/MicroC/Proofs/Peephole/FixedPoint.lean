import MicroC.Peephole

/-!
# The fixed point of the optimiser

The optimiser stops at a round that counts no change. Such a round has left all instructions as they were,
so there is nothing left that a reduction it was allowed could change.

* `Joins`, `Feeds`: where a pop could be joined with a push, and an instruction could take a constant.
* `Normal`: code without such places, without `nop`s and without moves to the same place.
* `reduceRound_eq_of_total`: a round without changes.
* **`optimised_normal`**: what is left behind the optimiser, and that it does nothing a second time.
-/

namespace MicroC

open Operand Convention

/-! ## Normal code -/

/-- Instructions that may stand between a push of an operand and the pop it is joined with. -/
def Movable (src : String) (i : Instruction) : Prop :=
  (i.isNop = true ∨ i.opcode = .movq ∧ i.mentions stackPointer = false) ∧ preserves src i = true

/-- A push, what stands behind it, and the pop that takes its value. -/
structure Joins (push : Instruction) (window : List Instruction) (pop : Instruction) : Prop where
  isPush : push.opcode = .pushq
  isPop : pop.opcode = .popq
  movable : ∀ i ∈ window, Movable (push.operand 0) i

/-- Behind the instruction a register still has the constant that it had. -/
def Passes (register : String) (i : Instruction) : Prop :=
  i.isNop = true ∨ takesConstant register i = true ∨
    i.opcode.transfersControl = false ∧ register ∉ i.writes

/-- A load of a constant, what stands behind it, and an instruction that could take the constant. -/
def Feeds (load : Instruction) (window : List Instruction) (use : Instruction) : Prop :=
  ∃ register constant, constantLoad? load = some (register, constant) ∧
    (∀ i ∈ window, Passes register i) ∧ takesConstant register use = true

/-- Every instruction does something. -/
def WithoutNops (code : List Instruction) : Prop := ∀ i ∈ code, i.opcode ≠ .nop

/-- Only a pop to memory of a word from memory can be fed by a push. -/
def WithoutPushPops (code : List Instruction) : Prop :=
  ∀ before push window pop after, code = before ++ push :: window ++ pop :: after → Joins push window pop →
    isMemory (push.operand 0) = true ∧ isMemory (pop.operand 0) = true

/-- No instruction adds or subtracts a register that holds a constant. -/
def WithoutConstants (code : List Instruction) : Prop :=
  ∀ before load window use after, code = before ++ load :: window ++ use :: after → ¬ Feeds load window use

/-- Every move goes to another place. -/
def WithoutSelfMoves (code : List Instruction) : Prop :=
  ∀ i ∈ code, i.opcode = .movq → i.operand 0 ≠ i.operand 1

/-- Code that no allowed reduction can change. -/
structure Normal (rs : Reductions) (code : List Instruction) : Prop where
  nops : rs.nops = true → WithoutNops code
  pushPops : rs.pushPops = true → WithoutPushPops code
  constants : rs.constants = true → WithoutConstants code
  selfMoves : rs.selfMoves = true → WithoutSelfMoves code

/-! ## Reductions that count no change -/

section Counts

variable {code past : List Instruction}

theorem isNop_iff {i : Instruction} : i.isNop = true ↔ i.opcode = .nop := beq_iff_eq

theorem removeNops_eq_of_count (h : (removeNops code).count = 0) :
    (removeNops code).code = code ∧ WithoutNops code := by
  have hno : ∀ i ∈ code, ¬ i.isNop = true := List.countP_eq_zero.1 h
  refine ⟨List.filter_eq_self.2 fun i hi => ?_, fun i hi hop => hno i hi (isNop_iff.2 hop)⟩
  rw [Bool.not_eq_true', Bool.eq_false_iff]
  exact hno i hi

theorem removeSelfMoves_eq_of_count (h : (removeSelfMoves code).count = 0) :
    (removeSelfMoves code).code = code ∧ WithoutSelfMoves code := by
  have hno : ∀ i ∈ code, ¬ isSelfMove i = true := List.countP_eq_zero.1 h
  constructor
  · have hid : ∀ i ∈ code, (if isSelfMove i then Instruction.nop else i) = id i := fun i hi => if_neg (hno i hi)
    exact (List.map_congr_left hid).trans (List.map_id code)
  · intro i hi hop hsame
    refine hno i hi ?_
    rw [isSelfMove, Bool.and_eq_true, beq_iff_eq, beq_iff_eq]
    exact ⟨hop, hsame⟩

/-! ### Pushes and pops -/

/-- The search for a push passes the instructions that may stand in between. -/
theorem findPush_of_window {window before : List Instruction} {push : Instruction} (hp : push.opcode = .pushq)
    (hw : ∀ i ∈ window, i.isNop = true ∨ i.opcode = .movq ∧ i.mentions stackPointer = false) :
    findPush (window ++ push :: before) = some (window, push, before) := by
  induction window with
  | nil => rw [List.nil_append, findPush, hp]
  | cons i window ih =>
    have ih := ih fun j hj => hw j (List.mem_cons_of_mem _ hj)
    rw [List.cons_append, findPush, ih]
    rcases hw i List.mem_cons_self with hnop | ⟨hop, hno⟩
    · rw [isNop_iff.1 hnop]
      rfl
    · rw [hop, if_neg (by rw [hno]; exact Bool.false_ne_true)]
      rfl

/-- A pop that could be joined with its push is, unless both are in memory. -/
theorem isMemory_of_joinPop?_eq_none {window before : List Instruction} {push pop : Instruction}
    (h : Joins push window pop) (hnone : joinPop? (window.reverse ++ push :: before) pop = none) :
    isMemory (push.operand 0) = true ∧ isMemory (pop.operand 0) = true := by
  have hfind : findPush (window.reverse ++ push :: before) = some (window.reverse, push, before) :=
    findPush_of_window h.isPush fun i hi => (h.movable i (List.mem_reverse.1 hi)).1
  have hall : window.reverse.all (preserves (push.operand 0)) = true :=
    List.all_eq_true.2 fun i hi => (h.movable i (List.mem_reverse.1 hi)).2
  rw [joinPop?, hfind] at hnone
  dsimp only at hnone
  rw [hall, Bool.true_and] at hnone
  split at hnone
  · cases hnone
  · next hmem => simpa using hmem

theorem combineFrom_eq_of_count (h : (combineFrom past code).count = 0) :
    (combineFrom past code).code = past.reverse ++ code ∧
      ∀ before pop after, code = before ++ pop :: after → pop.opcode = .popq →
        joinPop? (before.reverse ++ past) pop = none := by
  induction code generalizing past with
  | nil =>
    refine ⟨(List.append_nil _).symm, fun before pop after heq => ?_⟩
    exact absurd heq.symm (List.append_ne_nil_of_right_ne_nil _ (List.cons_ne_nil _ _))
  | cons i rest ih =>
    rw [combineFrom] at h ⊢
    split at h
    · cases h
    · next hnone =>
      obtain ⟨hcode, hpops⟩ := ih h
      rw [List.reverse_cons, List.append_assoc] at hcode
      refine ⟨hcode, fun before pop after heq hp => ?_⟩
      cases before with
      | nil =>
        obtain ⟨rfl, -⟩ := List.cons.inj heq
        rwa [if_pos hp] at hnone
      | cons j before =>
        obtain ⟨rfl, hrest⟩ := List.cons.inj heq
        rw [List.reverse_cons, List.append_assoc]
        exact hpops before pop after hrest hp

theorem combinePushPop_eq_of_count (h : (combinePushPop code).count = 0) :
    (combinePushPop code).code = code ∧ WithoutPushPops code := by
  obtain ⟨hcode, hpops⟩ := combineFrom_eq_of_count h
  refine ⟨hcode, fun before push window pop after heq hj => ?_⟩
  have hnone := hpops _ pop after heq hj.isPop
  rw [List.append_nil, List.reverse_append, List.reverse_cons, List.append_assoc] at hnone
  exact isMemory_of_joinPop?_eq_none hj hnone

/-! ### Constants -/

variable {register constant : String}

/-- Up to where the register loses its constant, no instruction could take the constant. -/
def Untaken (register : String) (code : List Instruction) : Prop :=
  ∀ window use after, code = window ++ use :: after → (∀ i ∈ window, Passes register i) →
    takesConstant register use = false

theorem untaken_nil : Untaken register [] := fun _ _ _ heq =>
  absurd heq.symm (List.append_ne_nil_of_right_ne_nil _ (List.cons_ne_nil _ _))

theorem untaken_cons {i : Instruction} (hi : takesConstant register i = false)
    (h : Passes register i → Untaken register code) : Untaken register (i :: code) := by
  intro window use after heq hw
  cases window with
  | nil =>
    obtain ⟨rfl, -⟩ := List.cons.inj heq
    exact hi
  | cons j window =>
    obtain ⟨rfl, hrest⟩ := List.cons.inj heq
    obtain ⟨hpass, hw⟩ := List.forall_mem_cons.1 hw
    exact h hpass window use after hrest hw

theorem takesConstant_of_isNop {i : Instruction} (h : i.isNop = true) : takesConstant register i = false := by
  rw [takesConstant, isNop_iff.1 h]
  rfl

theorem not_passes {i : Instruction} (hnop : ¬ i.isNop = true) (htakes : ¬ takesConstant register i = true)
    (h : i.opcode.transfersControl = true ∨ i.writes.contains register = true) : ¬ Passes register i := by
  rintro (hi | hi | ⟨hstay, hkeep⟩)
  · exact hnop hi
  · exact htakes hi
  · rcases h with h | h
    · rw [hstay] at h
      cases h
    · exact hkeep (List.contains_iff_mem.1 h)

theorem foldUses_eq_of_folded (h : (foldUses register constant code).folded = 0) :
    (foldUses register constant code).code = code ∧ Untaken register code := by
  fun_induction foldUses register constant code with
  | case1 => exact ⟨rfl, untaken_nil⟩
  | case2 i rest hnop u ih =>
    obtain ⟨hcode, hrest⟩ := ih h
    exact ⟨congrArg (i :: ·) hcode, untaken_cons (takesConstant_of_isNop hnop) fun _ => hrest⟩
  | case3 => cases h
  | case11 i rest hnop htakes used _ _ _ _ _ _ _ u ih =>
    obtain ⟨hcode, hrest⟩ := ih h
    exact ⟨congrArg (i :: ·) hcode, untaken_cons (Bool.eq_false_iff.2 htakes) fun _ => hrest⟩
  | case10 i rest hnop htakes used hwrites =>
    have hstop := not_passes hnop htakes (.inr hwrites)
    exact ⟨rfl, untaken_cons (Bool.eq_false_iff.2 htakes) fun hpass => absurd hpass hstop⟩
  | case4 i rest hnop htakes used hop | case5 i rest hnop htakes used hop | case6 i rest hnop htakes used hop
  | case7 i rest hnop htakes used hop | case8 i rest hnop htakes used hop | case9 i rest hnop htakes used hop =>
    have hstop := not_passes hnop htakes (.inl (by rw [hop]; rfl))
    exact ⟨rfl, untaken_cons (Bool.eq_false_iff.2 htakes) fun hpass => absurd hpass hstop⟩

theorem withoutConstants_cons {i : Instruction}
    (hi : ∀ register constant, constantLoad? i = some (register, constant) → Untaken register code)
    (h : WithoutConstants code) : WithoutConstants (i :: code) := by
  intro before load window use after heq hfeeds
  cases before with
  | nil =>
    obtain ⟨rfl, hrest⟩ := List.cons.inj heq
    obtain ⟨register, constant, hload, hpass, htakes⟩ := hfeeds
    rw [hi register constant hload window use after hrest hpass] at htakes
    cases htakes
  | cons j before => exact h before load window use after (List.cons.inj heq).2 hfeeds

theorem foldConstants_eq_of_count (h : (foldConstants code).count = 0) :
    (foldConstants code).code = code ∧ WithoutConstants code := by
  fun_induction foldConstants code with
  | case1 =>
    refine ⟨rfl, fun before load window use after heq => ?_⟩
    exact absurd heq.symm (List.append_ne_nil_of_right_ne_nil _ (List.cons_ne_nil _ _))
  | case2 i rest hnone r ih =>
    obtain ⟨hcode, hrest⟩ := ih h
    refine ⟨congrArg (i :: ·) hcode, withoutConstants_cons (fun register constant hload => ?_) hrest⟩
    rw [hnone] at hload
    cases hload
  | case3 i rest register constant hload u r ih =>
    obtain ⟨hfolded, hcount⟩ := Nat.add_eq_zero_iff.1 h
    obtain ⟨huses, huntaken⟩ := foldUses_eq_of_folded hfolded
    obtain ⟨hcode, hrest⟩ := ih hcount
    have hkept : ¬ (0 < u.folded && u.dead && !u.used) = true := by simp [hfolded]
    rw [show u.code = rest from huses] at hrest
    refine ⟨?_, withoutConstants_cons (fun register' constant' hload' => ?_) hrest⟩
    · rw [if_neg hkept]
      exact congrArg (i :: ·) (hcode.trans huses)
    · rw [hload] at hload'
      cases hload'
      exact huntaken

end Counts

/-! ## Rounds -/

section Rounds

variable {rs : Reductions}

theorem reduceIf_eq_of_count {allowed : Bool} {reduce : List Instruction → Reduced}
    {P : List Instruction → Prop} {code : List Instruction}
    (hreduce : (reduce code).count = 0 → (reduce code).code = code ∧ P code)
    (h : (reduceIf allowed reduce code).count = 0) :
    (reduceIf allowed reduce code).code = code ∧ (allowed = true → P code) := by
  cases allowed with
  | false => exact ⟨rfl, nofun⟩
  | true =>
    obtain ⟨hcode, hp⟩ := hreduce h
    exact ⟨hcode, fun _ => hp⟩

/-- **A round that counts no change changes nothing**, and no reduction it was allowed could. -/
theorem reduceRound_eq_of_total {code : List Instruction} (h : (reduceRound rs code).2.total = 0) :
    (reduceRound rs code).1 = code ∧ Normal rs code := by
  simp only [reduceRound, Stats.total, Nat.add_eq_zero_iff] at h ⊢
  obtain ⟨⟨⟨ha, hb⟩, hc⟩, hd⟩ := h
  obtain ⟨hcode, hnops⟩ := reduceIf_eq_of_count removeNops_eq_of_count ha
  rw [hcode] at hb hc hd ⊢
  obtain ⟨hcode, hpops⟩ := reduceIf_eq_of_count combinePushPop_eq_of_count hb
  rw [hcode] at hc hd ⊢
  obtain ⟨hcode, hconstants⟩ := reduceIf_eq_of_count foldConstants_eq_of_count hc
  rw [hcode] at hd ⊢
  obtain ⟨hcode, hmoves⟩ := reduceIf_eq_of_count removeSelfMoves_eq_of_count hd
  exact ⟨hcode, hnops, hpops, hconstants, hmoves⟩

namespace Module

theorem roundBlocks_eq_of_total {bs : List Block} (h : (roundBlocks rs bs).2.total = 0) :
    (roundBlocks rs bs).1 = bs ∧ ∀ b ∈ bs, Normal rs b.code := by
  induction bs with
  | nil => exact ⟨rfl, nofun⟩
  | cons b bs ih =>
    simp only [roundBlocks, Stats.total_add, Nat.add_eq_zero_iff] at h ⊢
    obtain ⟨hb, hbs⟩ := h
    obtain ⟨hcode, hnormal⟩ := reduceRound_eq_of_total hb
    obtain ⟨hblocks, hrest⟩ := ih hbs
    rw [hcode, hblocks]
    exact ⟨rfl, List.forall_mem_cons.2 ⟨hnormal, hrest⟩⟩

theorem rounds_roundBlocks (bs : List Block) : (roundBlocks rs bs).2.rounds = 0 := by
  induction bs with
  | nil => rfl
  | cons b bs ih =>
    simp only [roundBlocks, Stats.add, ih]
    rfl

/-- The optimiser stops where a round counts no change. -/
theorem total_roundBlocks_optimiseBlocks (bs : List Block) :
    (roundBlocks rs (optimiseBlocks rs bs).1).2.total = 0 := by
  fun_induction optimiseBlocks rs bs with
  | case1 bs r h =>
    rw [show r.1 = bs from (roundBlocks_eq_of_total h).1]
    exact h
  | case2 bs r h bs' t heq ih => rwa [heq] at ih

/-- **The optimiser leaves nothing to reduce.** A second time with the same reductions it makes one round
and changes nothing. -/
theorem optimised_normal (rs : Reductions) (m : Module) :
    (m.optimise rs).1.optimise rs = ((m.optimise rs).1, { rounds := 1 }) ∧
      ∀ b ∈ (m.optimise rs).1.blocks, Normal rs b.code := by
  have htotal : (roundBlocks rs (m.optimise rs).1.blocks).2.total = 0 := total_roundBlocks_optimiseBlocks m.blocks
  obtain ⟨hsame, hnormal⟩ := roundBlocks_eq_of_total htotal
  refine ⟨?_, hnormal⟩
  have hstats : (roundBlocks rs (m.optimise rs).1.blocks).2 = {} := by
    have hrounds : (roundBlocks rs (m.optimise rs).1.blocks).2.rounds = 0 := rounds_roundBlocks _
    generalize (roundBlocks rs (m.optimise rs).1.blocks).2 = s at htotal hrounds
    obtain ⟨rounds, nops, pushPops, constants, selfMoves⟩ := s
    simp only [Stats.total, Nat.add_eq_zero_iff] at htotal
    simp_all
  rw [optimise, optimiseBlocks]
  simp only [hsame, hstats]
  rfl

end Module

end Rounds

end MicroC
