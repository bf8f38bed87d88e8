import MicroC.Assembly.Flow

/-!
# Reducing blocks

Four reductions of a block of instructions, each with the number of places it changed.

* `removeNops`: drops instructions that do nothing.
* `combinePushPop`: `pushq X; …; popq Y` becomes `…; movq X, Y`.
* `foldConstants`: a constant in a register goes into the additions and subtractions that use it.
* `removeSelfMoves`: `movq X, X` becomes a `nop`.

Every change makes the weight of a block smaller (`weight_combinePushPop` and the like), so the
reductions cannot go on for ever.
-/

namespace MicroC

open Operand Convention

/-- A block of instructions after a reduction, and how many changes the reduction made. -/
structure Reduced where
  code : List Instruction
  count : Nat
deriving DecidableEq, Repr

/-! ## Dropping nops -/

/-- Drops instructions that do nothing. -/
def removeNops (code : List Instruction) : Reduced :=
  ⟨code.filter fun i => !i.isNop, code.countP Instruction.isNop⟩

/-! ## Pushes and pops -/

/-- Looks back from a `popq` for the `pushq` that feeds it: the instructions in between, the push,
and what comes before it, all in reverse order. In between there may be nothing but `nop`s and
`movq`s that leave the stack pointer alone. -/
def findPush : List Instruction → Option (List Instruction × Instruction × List Instruction)
  | [] => none
  | i :: past =>
    match i.opcode with
    | .pushq => some ([], i, past)
    | .nop => (findPush past).map fun (window, push, before) => (i :: window, push, before)
    | .movq =>
      if i.mentions stackPointer then none
      else (findPush past).map fun (window, push, before) => (i :: window, push, before)
    | _ => none

/-- The search for a push tells where it found it. -/
theorem eq_of_findPush {past window before : List Instruction} {push : Instruction}
    (h : findPush past = some (window, push, before)) :
    past = window ++ push :: before ∧ push.opcode = .pushq := by
  induction past generalizing window with
  | nil => cases h
  | cons i past ih =>
    have hpassed : ∀ {t : List Instruction × Instruction × List Instruction}, findPush past = some t →
        (i :: t.1, t.2) = (window, push, before) →
          i :: past = window ++ push :: before ∧ push.opcode = .pushq := by
      rintro ⟨w, p, b⟩ hw heq
      cases heq
      obtain ⟨rfl, hp⟩ := ih hw
      exact ⟨rfl, hp⟩
    rw [findPush] at h
    split at h
    · next hop =>
      cases h
      exact ⟨rfl, hop⟩
    · obtain ⟨t, ht, heq⟩ := Option.map_eq_some_iff.1 h
      exact hpassed ht heq
    · split at h
      · cases h
      · obtain ⟨t, ht, heq⟩ := Option.map_eq_some_iff.1 h
        exact hpassed ht heq
    · cases h

/-- Whether an operand has the same value behind an instruction as in front of it. -/
def preserves (operand : String) (i : Instruction) : Bool :=
  i.isNop || ((registers operand).all fun r => !i.writes.contains r)
    && !(isMemory operand && i.writesMemory)

/-- Joins a `popq` with the `pushq` that feeds it. No instruction moves memory to memory. -/
def joinPop? (past : List Instruction) (pop : Instruction) : Option (List Instruction) :=
  match findPush past with
  | none => none
  | some (window, push, before) =>
    let src := push.operand 0
    let dst := pop.operand 0
    if window.all (preserves src) && !(isMemory src && isMemory dst) then
      some ({ opcode := .movq, operands := [src, dst], comment := push.comment }
        :: (window ++ .nop :: before))
    else none

/-- Joins pops with pushes from the front to the back; `past` has been gone through, in reverse. -/
def combineFrom (past : List Instruction) : List Instruction → Reduced
  | [] => ⟨past.reverse, 0⟩
  | i :: rest =>
    match if i.opcode = .popq then joinPop? past i else none with
    | some past =>
      let r := combineFrom past rest
      ⟨r.code, r.count + 1⟩
    | none => combineFrom (i :: past) rest

/-- `pushq X; …; popq Y` becomes `…; movq X, Y`. -/
def combinePushPop (code : List Instruction) : Reduced := combineFrom [] code

/-! ## Constants -/

/-- The register and the constant of `movq $constant, %register`, if the constant can be an
immediate of an arithmetic instruction. -/
def constantLoad? (i : Instruction) : Option (String × String) :=
  if i.opcode = .movq ∧ isRegister (i.operand 1) then
    match immediate? (i.operand 0) with
    | some v => if fitsImmediate v then some (i.operand 1, i.operand 0) else none
    | none => none
  else none

/-- What the load of a constant is. -/
theorem constantLoad?_spec {i : Instruction} {register constant : String}
    (h : constantLoad? i = some (register, constant)) :
    i.opcode = .movq ∧ i.operand 1 = register ∧ i.operand 0 = constant ∧ isRegister register = true ∧
      ∃ w, immediate? constant = some w ∧ fitsImmediate w = true := by
  unfold constantLoad? at h
  split at h
  · next hi =>
    split at h
    · next w hw =>
      split at h
      · next hfits =>
        cases h
        exact ⟨hi.1, rfl, rfl, hi.2, w, hw, hfits⟩
      · cases h
    · cases h
  · cases h

/-- What became of the instructions behind the load of a constant. -/
structure Uses where
  code : List Instruction
  /-- How many instructions took the constant. -/
  folded : Nat
  /-- Whether an instruction still reads the register. -/
  used : Bool
  /-- Whether nobody needs the register where the search ended. -/
  dead : Bool

/-- Whether an instruction can take a constant in place of a register. -/
def takesConstant (register : String) (i : Instruction) : Bool :=
  (i.opcode == .addq || i.opcode == .subq) && i.operand 0 == register && i.operand 1 != register

/-- Puts a constant in the place of a register up to the next write to the register, the next
transfer of control, or the end of the block. -/
def foldUses (register constant : String) : List Instruction → Uses
  | [] => ⟨[], 0, false, scratch.contains register⟩
  | i :: rest =>
    if i.isNop then
      let u := foldUses register constant rest
      { u with code := i :: u.code }
    else if takesConstant register i then
      let u := foldUses register constant rest
      { u with
        code := { i with operands := i.operands.set 0 constant } :: u.code
        folded := u.folded + 1 }
    else
      let used := i.reads.contains register
      match i.opcode with
      | .call => ⟨i :: rest, 0, used, false⟩
      | .retq => ⟨i :: rest, 0, used, !calleeSaved.contains register⟩
      | .jmp | .je | .jne | .jle => ⟨i :: rest, 0, used, scratch.contains register⟩
      | _ =>
        if i.writes.contains register then ⟨i :: rest, 0, used, true⟩
        else
          let u := foldUses register constant rest
          { u with code := i :: u.code, used := used || u.used }

theorem length_foldUses (register constant : String) (code : List Instruction) :
    (foldUses register constant code).code.length = code.length := by
  fun_induction foldUses register constant code <;> simp_all +zetaDelta

/-- Folds constants into the instructions that use them. A load whose register nobody needs any more
becomes a `nop`. -/
def foldConstants : List Instruction → Reduced
  | [] => ⟨[], 0⟩
  | i :: rest =>
    match constantLoad? i with
    | none =>
      let r := foldConstants rest
      ⟨i :: r.code, r.count⟩
    | some (register, constant) =>
      let u := foldUses register constant rest
      let r := foldConstants u.code
      ⟨(if 0 < u.folded && u.dead && !u.used then .nop else i) :: r.code, u.folded + r.count⟩
termination_by code => code.length
decreasing_by
  · simp
  · simp [length_foldUses]

/-! ## Moves to the same place -/

/-- `movq X, X` -/
def isSelfMove (i : Instruction) : Bool := i.opcode == .movq && i.operand 0 == i.operand 1

/-- Makes moves to the same place do nothing. -/
def removeSelfMoves (code : List Instruction) : Reduced :=
  ⟨code.map fun i => if isSelfMove i then .nop else i, code.countP isSelfMove⟩

/-! ## Weight -/

/-- The weight of an instruction. Every reduction turns instructions into lighter ones. -/
def Instruction.weight (i : Instruction) : Nat :=
  match i.opcode with
  | .pushq | .popq | .movq => 2
  | .addq | .subq => if isRegister (i.operand 0) then 2 else 1
  | _ => 1

/-- The weight of a block of instructions. -/
def weight : List Instruction → Nat
  | [] => 0
  | i :: code => i.weight + weight code

@[simp] theorem weight_nil : weight [] = 0 := rfl

@[simp] theorem weight_cons (i : Instruction) (code : List Instruction) :
    weight (i :: code) = i.weight + weight code := rfl

@[simp] theorem weight_append (xs ys : List Instruction) :
    weight (xs ++ ys) = weight xs + weight ys := by
  induction xs with
  | nil => simp
  | cons x xs ih => simp [ih]; omega

@[simp] theorem weight_reverse (xs : List Instruction) : weight xs.reverse = weight xs := by
  induction xs with
  | nil => rfl
  | cons x xs ih => simp [ih]; omega

@[simp] theorem Instruction.weight_nop : Instruction.nop.weight = 1 := rfl

theorem Instruction.weight_pos (i : Instruction) : 0 < i.weight := by
  unfold weight
  split <;> (try split) <;> omega

theorem weight_removeNops (code : List Instruction) :
    weight (removeNops code).code + (removeNops code).count ≤ weight code := by
  induction code with
  | nil => simp [removeNops]
  | cons i code ih =>
    have := i.weight_pos
    simp only [removeNops] at ih ⊢
    cases h : i.isNop <;> simp [h] <;> omega

theorem weight_findPush {past window before : List Instruction} {push : Instruction}
    (h : findPush past = some (window, push, before)) :
    weight past = weight window + push.weight + weight before ∧ push.opcode = .pushq := by
  obtain ⟨rfl, hop⟩ := eq_of_findPush h
  refine ⟨?_, hop⟩
  rw [weight_append, weight_cons, Nat.add_assoc]

theorem weight_joinPop? {past joined : List Instruction} {pop : Instruction}
    (hp : pop.opcode = .popq) (h : joinPop? past pop = some joined) :
    weight joined + 1 ≤ weight past + pop.weight := by
  unfold joinPop? at h
  split at h
  · simp at h
  · next window push before hf =>
    have ⟨hw, ho⟩ := weight_findPush hf
    dsimp only at h
    split at h
    · cases h
      simp only [weight_cons, weight_append, Instruction.weight_nop, hw]
      simp only [Instruction.weight, hp, ho]
      omega
    · simp at h

theorem weight_combineFrom (past code : List Instruction) :
    weight (combineFrom past code).code + (combineFrom past code).count
      ≤ weight past + weight code := by
  fun_induction combineFrom past code with
  | case1 past => simp
  | case2 past i rest joined h r ih =>
    split at h
    · next hp =>
      have := weight_joinPop? hp h
      simp only [weight_cons, r]
      omega
    · simp at h
  | case3 past i rest h ih =>
    simp only [weight_cons] at ih ⊢
    omega

theorem weight_combinePushPop (code : List Instruction) :
    weight (combinePushPop code).code + (combinePushPop code).count ≤ weight code := by
  simpa [combinePushPop] using weight_combineFrom [] code

theorem weight_takesConstant {register constant : String} {i : Instruction}
    (hr : isRegister register = true) (hc : isRegister constant = false)
    (h : takesConstant register i = true) :
    ({ i with operands := i.operands.set 0 constant } : Instruction).weight + 1 ≤ i.weight := by
  simp only [takesConstant, Bool.and_eq_true, Bool.or_eq_true, beq_iff_eq] at h
  obtain ⟨⟨hop, hsrc⟩, -⟩ := h
  cases ho : i.operands with
  | nil =>
    simp only [Instruction.operand, ho, List.getD_nil] at hsrc
    exact absurd hr (by simp [← hsrc, isRegister])
  | cons o os =>
    simp only [Instruction.operand, ho, List.getD_cons_zero] at hsrc
    rcases hop with hop | hop <;>
      simp [Instruction.weight, hop, Instruction.operand, ho, hsrc, hr, hc]

theorem weight_foldUses {register : String} (hr : isRegister register = true) {constant : String}
    (hc : isRegister constant = false) (code : List Instruction) :
    weight (foldUses register constant code).code + (foldUses register constant code).folded
      ≤ weight code := by
  fun_induction foldUses register constant code with
  | case1 => simp
  | case2 i rest _ u ih =>
    simp only [weight_cons, u]
    omega
  | case3 i rest _ ht u ih =>
    have : ({ i with operands := i.operands.set 0 constant } : Instruction).weight + 1 ≤ i.weight :=
      weight_takesConstant hr hc ht
    simp only [weight_cons, u]
    omega
  | case11 =>
    simp +zetaDelta only [weight_cons]
    omega
  | _ => simp

/-- An immediate is no register. -/
theorem isRegister_of_immediate? {o : String} {w : Int64} (h : immediate? o = some w) :
    isRegister o = false := by
  unfold immediate? at h
  split at h
  · next ho =>
    rw [isRegister, ho]
    rfl
  · cases h

theorem isRegister_of_constantLoad? {i : Instruction} {register constant : String}
    (h : constantLoad? i = some (register, constant)) :
    isRegister register = true ∧ isRegister constant = false := by
  obtain ⟨-, -, -, hr, v, hv, -⟩ := constantLoad?_spec h
  exact ⟨hr, isRegister_of_immediate? hv⟩

theorem weight_foldConstants (code : List Instruction) :
    weight (foldConstants code).code + (foldConstants code).count ≤ weight code := by
  fun_induction foldConstants code with
  | case1 => simp
  | case2 i rest _ r ih =>
    simp only [weight_cons, r]
    omega
  | case3 i rest register constant h u r ih =>
    have ⟨hr, hc⟩ := isRegister_of_constantLoad? h
    have hu := weight_foldUses hr hc rest
    have hi : (if 0 < u.folded && u.dead && !u.used then Instruction.nop else i).weight ≤ i.weight := by
      split
      · exact i.weight_pos
      · exact Nat.le_refl _
    simp only [weight_cons, r, u] at hi ih ⊢
    omega

theorem weight_removeSelfMoves (code : List Instruction) :
    weight (removeSelfMoves code).code + (removeSelfMoves code).count ≤ weight code := by
  induction code with
  | nil => simp [removeSelfMoves]
  | cons i code ih =>
    simp only [removeSelfMoves] at ih ⊢
    cases h : isSelfMove i
    · simp [h]
      omega
    · have : i.weight = 2 := by
        simp only [isSelfMove, Bool.and_eq_true, beq_iff_eq] at h
        simp [Instruction.weight, h.1]
      simp [h]
      omega

end MicroC
