import MicroC.Peephole.Reduction

/-!
# The peephole optimiser

The reductions are applied to every block in a fixed order, again and again until a round changes
nothing. Each change makes the module lighter, so that happens (`Module.weight_roundBlocks`).

* `Reductions`: which reductions are allowed.
* `Module.optimise`: the module at the end of the last round.
-/

namespace MicroC

/-- Which reductions are allowed. -/
structure Reductions where
  nops : Bool := true
  pushPops : Bool := true
  constants : Bool := true
  selfMoves : Bool := true
deriving DecidableEq, Repr

namespace Reductions

/-- All reductions. -/
def all : Reductions := {}

/-- The reductions whose bits are set in a number. -/
def ofBits (n : Nat) : Reductions :=
  ⟨n.testBit 0, n.testBit 1, n.testBit 2, n.testBit 3⟩

end Reductions

/-- What the optimiser did. -/
structure Stats where
  /-- The number of rounds, with the last one that changed nothing. -/
  rounds : Nat := 0
  nops : Nat := 0
  pushPops : Nat := 0
  constants : Nat := 0
  selfMoves : Nat := 0
deriving DecidableEq, Repr

namespace Stats

/-- The number of changes. -/
def total (s : Stats) : Nat := s.nops + s.pushPops + s.constants + s.selfMoves

/-- Both together. -/
def add (s t : Stats) : Stats where
  rounds := s.rounds + t.rounds
  nops := s.nops + t.nops
  pushPops := s.pushPops + t.pushPops
  constants := s.constants + t.constants
  selfMoves := s.selfMoves + t.selfMoves

@[simp] theorem total_add (s t : Stats) : (s.add t).total = s.total + t.total := by
  simp only [total, add]
  omega

end Stats

/-- Applies a reduction if it is allowed. -/
def reduceIf (allowed : Bool) (reduce : List Instruction → Reduced) (code : List Instruction) :
    Reduced :=
  if allowed then reduce code else ⟨code, 0⟩

theorem weight_reduceIf (allowed : Bool) {reduce : List Instruction → Reduced}
    (h : ∀ code, weight (reduce code).code + (reduce code).count ≤ weight code)
    (code : List Instruction) :
    weight (reduceIf allowed reduce code).code + (reduceIf allowed reduce code).count
      ≤ weight code := by
  unfold reduceIf
  split
  · exact h code
  · simp

/-- One round of the reductions over the instructions of a block. -/
def reduceRound (rs : Reductions) (code : List Instruction) : List Instruction × Stats :=
  let a := reduceIf rs.nops removeNops code
  let b := reduceIf rs.pushPops combinePushPop a.code
  let c := reduceIf rs.constants foldConstants b.code
  let d := reduceIf rs.selfMoves removeSelfMoves c.code
  (d.code, { nops := a.count, pushPops := b.count, constants := c.count, selfMoves := d.count })

theorem weight_reduceRound (rs : Reductions) (code : List Instruction) :
    weight (reduceRound rs code).1 + (reduceRound rs code).2.total ≤ weight code := by
  simp only [reduceRound, Stats.total]
  have ha := weight_reduceIf rs.nops weight_removeNops code
  have hb := weight_reduceIf rs.pushPops weight_combinePushPop
    (reduceIf rs.nops removeNops code).code
  have hc := weight_reduceIf rs.constants weight_foldConstants
    (reduceIf rs.pushPops combinePushPop (reduceIf rs.nops removeNops code).code).code
  have hd := weight_reduceIf rs.selfMoves weight_removeSelfMoves
    (reduceIf rs.constants foldConstants
      (reduceIf rs.pushPops combinePushPop (reduceIf rs.nops removeNops code).code).code).code
  omega

namespace Module

/-- One round over a list of blocks. -/
def roundBlocks (rs : Reductions) : List Block → List Block × Stats
  | [] => ([], {})
  | b :: bs =>
    let (code, s) := reduceRound rs b.code
    let (bs, t) := roundBlocks rs bs
    ({ b with code } :: bs, s.add t)

/-- The weight of all instructions. -/
def totalWeight : List Block → Nat
  | [] => 0
  | b :: bs => weight b.code + totalWeight bs

theorem weight_roundBlocks (rs : Reductions) (bs : List Block) :
    totalWeight (roundBlocks rs bs).1 + (roundBlocks rs bs).2.total ≤ totalWeight bs := by
  induction bs with
  | nil => simp [roundBlocks, totalWeight, Stats.total]
  | cons b bs ih =>
    have := weight_reduceRound rs b.code
    simp only [roundBlocks, totalWeight, Stats.total_add] at ih ⊢
    omega

/-- Rounds until one changes nothing. -/
def optimiseBlocks (rs : Reductions) (bs : List Block) : List Block × Stats :=
  let r := roundBlocks rs bs
  if r.2.total = 0 then (r.1, { r.2 with rounds := 1 })
  else
    let (bs, t) := optimiseBlocks rs r.1
    (bs, { r.2 with rounds := 1 }.add t)
termination_by totalWeight bs
decreasing_by
  have := weight_roundBlocks rs bs
  have : ¬ (roundBlocks rs bs).2.total = 0 := by assumption
  omega

/-- The module after all reductions that apply, and what was done. -/
def optimise (rs : Reductions) (m : Module) : Module × Stats :=
  let (bs, s) := optimiseBlocks rs m.blocks
  (⟨bs⟩, s)

end Module

end MicroC
