import MicroC.Peephole.Reduction
import MicroC.Proofs.Machine.Straight

/-!
# Constants in place of registers

A constant that is folded into the instructions that use it has the value that the register would have had.
The load is left out if nobody needs the register, and that is where an addition to a place in memory
whose address is in the register is overlooked: it takes the constant, and counts as a use no more.

* `Instruction.addsToItsAddress`: such an addition or subtraction.
* `NeedsNot`: a register is overwritten before it is read, or it is a scratch register.
* `inOrder_foldUses`: the constant takes the place of the register.
* **`foldConstants_inOrder`**: a block without such instructions means the same once constants are folded.
* `foldConstants_loses_address`: a block with one does not.
-/

namespace MicroC

open Operand Convention

/-- An addition or subtraction at an address that is in the register that is added or subtracted. -/
def Instruction.addsToItsAddress (i : Instruction) : Bool :=
  takesConstant (i.operand 0) i && (registers (i.operand 1)).contains (i.operand 0)

/-- The value of a register does not matter in front of a block: it is not read before it is overwritten,
and if it is not overwritten, it is a scratch register. -/
def NeedsNot (register : String) : List Instruction → Prop
  | [] => register ∈ scratch
  | i :: code => register ∉ i.reads ∧ (register ∈ i.writes ∨ NeedsNot register code)

/-! ## Loads -/

/-- What a load of a constant is. -/
structure Loads (i : Instruction) (register constant : String) : Prop where
  opcode : i.opcode = .movq
  dst : i.operand 1 = register
  src : i.operand 0 = constant
  inRegister : isRegister register = true
  immediate : ∃ w, immediate? constant = some w

theorem loads_of_constantLoad? {i : Instruction} {register constant : String}
    (h : constantLoad? i = some (register, constant)) : Loads i register constant := by
  obtain ⟨hop, hdst, hsrc, hr, w, hw, -⟩ := constantLoad?_spec h
  exact ⟨hop, hdst, hsrc, hr, w, hw⟩

theorem arg?_of_immediate? {o : String} {w : Int64} (h : immediate? o = some w) :
    arg? o = some (.immediate w) := by
  unfold immediate? at h
  split at h
  · next ds ho =>
    have harg : arg? o = ((Decimal.int? ds).bind Decimal.word?).map .immediate := by
      simp only [arg?, ho]
    rw [harg, h, Option.map_some]
  · cases h

/-- Registers that are named in a text start with a percent sign. -/
theorem isRegister_of_mem_registersIn {cs : List Char} {o : String} (h : o ∈ registersIn cs) :
    ∃ ds, o.toList = '%' :: ds := by
  induction cs with
  | nil => cases h
  | cons c cs ih =>
    rw [registersIn] at h
    split at h
    · rcases List.mem_cons.1 h with rfl | h
      · exact ⟨_, String.toList_ofList⟩
      · exact ih h
    · exact ih h

theorem not_mem_registers_of_immediate? {o : String} {w : Int64} (h : immediate? o = some w) (t : String) :
    o ∉ registers t := by
  intro hm
  obtain ⟨ds, ho⟩ := isRegister_of_mem_registersIn hm
  rw [immediate?, ho] at h
  cases h

theorem Loads.act {i : Instruction} {register constant : String} (h : Loads i register constant) {c d : Cpu}
    (hx : i.act c = .ok () d) :
    ∃ r w, register = Register.name r ∧ arg? constant = some (.immediate w) ∧ d = c.set r w := by
  obtain ⟨w, hw⟩ := h.immediate
  rw [Instruction.act] at hx
  cases hargs : decodeArgs i.opcode i.operands with
  | error e =>
    rw [hargs] at hx
    cases hx
  | ok args =>
    rw [hargs] at hx
    have hsrc : args[0]? = some (.immediate w) := by
      rw [getElem?_eq_arg? hargs, h.src]
      exact arg?_of_immediate? hw
    have hexec : Act.execute i.opcode args = (Act.operand .movq args 0 >>= fun a => Act.read a >>= fun w =>
        Act.operand .movq args 1 >>= fun b => Act.write .movq b w) := by
      rw [h.opcode]
      rfl
    dsimp only at hx
    rw [hexec, Act.operand_bind, hsrc] at hx
    dsimp only at hx
    rw [Act.bind_of_ok (show Act.read (.immediate w) c = .ok w c from rfl), Act.operand_bind] at hx
    cases ha : args[1]? with
    | none =>
      rw [ha] at hx
      cases hx
    | some a =>
      rw [ha] at hx
      have htells := (tells_operand hargs ha).isRegister
      rw [h.dst, h.inRegister] at htells
      cases a with
      | register r =>
        rw [getElem?_eq_register hargs, h.dst] at ha
        cases hx
        exact ⟨r, w, ha, arg?_of_immediate? hw, rfl⟩
      | _ => cases htells

/-! ## Uses -/

theorem foldUses_cons {i : Instruction} (hi : i.opcode.transfersControl = false) (register constant : String)
    (code : List Instruction) :
    foldUses register constant (i :: code) =
      let u := foldUses register constant code
      if i.isNop then { u with code := i :: u.code }
      else if takesConstant register i then
        ⟨{ i with operands := i.operands.set 0 constant } :: u.code, u.folded + 1, u.used, u.dead⟩
      else if i.writes.contains register then ⟨i :: code, 0, i.reads.contains register, true⟩
      else ⟨i :: u.code, u.folded, i.reads.contains register || u.used, u.dead⟩ := by
  rw [foldUses]
  dsimp only
  split
  · rfl
  · split
    · rfl
    · cases ho : i.opcode <;> first | rfl | (rw [ho] at hi; cases hi)

/-- What an instruction is that can take a constant. -/
structure Takes (i : Instruction) (register : String) : Prop where
  opcode : i.opcode = .addq ∨ i.opcode = .subq
  src : i.operand 0 = register
  dst : i.operand 1 ≠ register

theorem takes_of_takesConstant {i : Instruction} {register : String} (h : takesConstant register i = true) :
    Takes i register := by
  simp only [takesConstant, Bool.and_eq_true, Bool.or_eq_true, beq_iff_eq, bne_iff_ne] at h
  exact ⟨h.1.1, h.1.2, h.2⟩

theorem Takes.writes {i : Instruction} {register : String} (h : Takes i register) : register ∉ i.writes := by
  have hdst : register ∉ if isRegister (i.operand 1) then [i.operand 1] else [] := by
    split
    · rw [List.mem_singleton]
      exact h.dst.symm
    · exact List.not_mem_nil
  rcases h.opcode with ho | ho <;> simpa only [Instruction.writes, ho] using hdst

theorem Act.combine_source {a b : Arg} {w : Int64} {c : Cpu} (ha : read a c = .ok w c) (hb : read b c = .ok w c)
    (opcode : Opcode) (args : List Arg) (f : Int64 → Int64 → Int64) :
    combine opcode (a :: args) f c = combine opcode (b :: args) f c := by
  show (read a >>= _) c = (read b >>= _) c
  rw [bind_of_ok ha, bind_of_ok hb]
  rfl

/-- The constant that is in a register may take its place. -/
theorem Takes.act {i : Instruction} {r : Register} (h : Takes i r.name) {constant : String} {w : Int64}
    (hw : arg? constant = some (.immediate w)) {c : Cpu} (hc : c.get r = w) :
    ({ i with operands := i.operands.set 0 constant } : Instruction).act c = i.act c := by
  obtain ⟨os, hos⟩ : ∃ os, i.operands = r.name :: os := by
    have hsrc := h.src
    cases ho : i.operands with
    | nil =>
      rw [Instruction.operand, ho] at hsrc
      exact absurd (congrArg isRegister hsrc) (by rw [(isRegisterName r).isRegister]; decide)
    | cons o os =>
      rw [Instruction.operand, ho] at hsrc
      exact ⟨os, by rw [show o = r.name from hsrc]⟩
  have hsource : ∀ (args : List Arg) (f : Int64 → Int64 → Int64),
      Act.combine i.opcode (.immediate w :: args) f c = Act.combine i.opcode (.register r :: args) f c :=
    fun args f => Act.combine_source rfl (by rw [← hc]; rfl) _ _ _
  rw [Instruction.act, Instruction.act, hos]
  dsimp only [List.set_cons_zero]
  rw [decodeArgs, decodeArgs, hw, arg?_register]
  dsimp only
  cases decodeArgs i.opcode os with
  | error e => rfl
  | ok args =>
    show Act.execute i.opcode (.immediate w :: args) c = Act.execute i.opcode (.register r :: args) c
    rcases h.opcode with ho | ho
    · rw [ho] at hsource ⊢
      exact hsource args _
    · rw [ho] at hsource ⊢
      exact hsource args _

theorem act_of_isNop {i : Instruction} (h : i.isNop = true) {c d : Cpu} (hx : i.act c = .ok () d) : d = c := by
  rw [Instruction.isNop, beq_iff_eq] at h
  unfold Instruction.act at hx
  rw [h] at hx
  cases hargs : decodeArgs .nop i.operands with
  | error e =>
    rw [hargs] at hx
    cases hx
  | ok args =>
    rw [hargs] at hx
    cases hx
    rfl

/-- **The constant takes the place of the register.** -/
theorem inOrder_foldUses {code : List Instruction} (hs : Straight code) {r : Register} {constant : String}
    {w : Int64} (hw : arg? constant = some (.immediate w)) {c d : Cpu} (hc : c.get r = w)
    (h : Act.inOrder code c = .ok () d) :
    Act.inOrder (foldUses r.name constant code).code c = .ok () d := by
  induction code generalizing c with
  | nil => exact h
  | cons i code ih =>
    obtain ⟨e, hi, hrest⟩ := Act.inOrder_cons.1 h
    rw [foldUses_cons hs.head]
    dsimp only
    by_cases hnop : i.isNop = true
    · rw [if_pos hnop]
      obtain rfl := act_of_isNop hnop hi
      exact Act.inOrder_cons.2 ⟨e, hi, ih hs.tail hc hrest⟩
    rw [if_neg hnop]
    by_cases ht : takesConstant r.name i = true
    · rw [if_pos ht]
      have htakes := takes_of_takesConstant ht
      have he : e.get r = w := (Instruction.keeps hs.head htakes.writes c () e hi).trans hc
      exact Act.inOrder_cons.2 ⟨e, (htakes.act hw hc).trans hi, ih hs.tail he hrest⟩
    rw [if_neg ht]
    by_cases hwr : i.writes.contains r.name = true
    · rw [if_pos hwr]
      exact h
    · rw [if_neg hwr]
      rw [List.contains_iff_mem] at hwr
      have he : e.get r = w := (Instruction.keeps hs.head hwr c () e hi).trans hc
      exact Act.inOrder_cons.2 ⟨e, hi, ih hs.tail he hrest⟩

/-! ## What becomes of the instructions -/

section

variable {register constant : String} {code : List Instruction}

/-- What holds of instructions and of those that take the constant holds of what they become. -/
theorem forall_foldUses {P : Instruction → Prop} (hs : Straight code) (h : ∀ i ∈ code, P i)
    (hP : ∀ i, Takes i register → P i → P { i with operands := i.operands.set 0 constant }) :
    ∀ i ∈ (foldUses register constant code).code, P i := by
  induction code with
  | nil => exact h
  | cons i code ih =>
    obtain ⟨hi, hcode⟩ := List.forall_mem_cons.1 h
    rw [foldUses_cons hs.head]
    dsimp only
    split
    · exact List.forall_mem_cons.2 ⟨hi, ih hs.tail hcode⟩
    · split
      · next ht => exact List.forall_mem_cons.2 ⟨hP i (takes_of_takesConstant ht) hi, ih hs.tail hcode⟩
      · split
        · exact h
        · exact List.forall_mem_cons.2 ⟨hi, ih hs.tail hcode⟩

theorem straight_foldUses (hs : Straight code) : Straight (foldUses register constant code).code :=
  forall_foldUses hs hs fun _ _ h => h

theorem getElem?_foldUses (hs : Straight code) {n : Nat} {i : Instruction} (hn : code[n]? = some i)
    (hi : i.opcode = .movq) : (foldUses register constant code).code[n]? = some i := by
  induction code generalizing n with
  | nil => cases hn
  | cons j code ih =>
    rw [foldUses_cons hs.head]
    dsimp only
    have hrest : ∀ {m}, (j :: code)[m + 1]? = some i → (foldUses register constant code).code[m]? = some i :=
      fun hm => ih hs.tail hm
    cases n with
    | succ n =>
      split
      · exact hrest hn
      · split
        · exact hrest hn
        · split
          · exact hn
          · exact hrest hn
    | zero =>
      cases hn
      split
      · rfl
      · split
        · next ht =>
          rcases (takes_of_takesConstant ht).opcode with ho | ho <;> rw [hi] at ho <;> cases ho
        · split <;> rfl

variable (hconst : ∃ w, immediate? constant = some w)

include hconst in
/-- An instruction that has taken a constant is not an addition at its own address. -/
theorem addsToItsAddress_set {i : Instruction} (h : i.addsToItsAddress = false) :
    ({ i with operands := i.operands.set 0 constant } : Instruction).addsToItsAddress = false := by
  obtain ⟨w, hw⟩ := hconst
  obtain ⟨opcode, os, comment⟩ := i
  cases os with
  | nil => exact h
  | cons o os =>
    show (_ && (registers _).contains constant) = false
    rw [Bool.and_eq_false_iff, Bool.eq_false_iff (b := List.contains _ _), ne_eq, List.contains_iff_mem]
    exact .inr (not_mem_registers_of_immediate? hw _)

include hconst in
/-- An instruction that has taken a constant reads what its destination names. -/
theorem Takes.reads_set {i : Instruction} (h : Takes i register) :
    ({ i with operands := i.operands.set 0 constant } : Instruction).reads = registers (i.operand 1) := by
  obtain ⟨w, hw⟩ := hconst
  obtain ⟨opcode, os, comment⟩ := i
  have hfirst : registers (({ opcode, operands := os.set 0 constant, comment } : Instruction).operand 0) = [] := by
    cases os with
    | nil => rfl
    | cons o os => exact (arg?_tells (arg?_of_immediate? hw)).registers
  have hsecond : ({ opcode, operands := os.set 0 constant, comment } : Instruction).operand 1 =
      ({ opcode, operands := os, comment } : Instruction).operand 1 := by
    cases os <;> rfl
  rcases h.opcode with ho | ho
  all_goals
    cases ho
    rw [Instruction.reads]
    dsimp only
    rw [hfirst, hsecond, List.nil_append]

theorem Takes.not_mem_registers {i : Instruction} (h : Takes i register) (hi : i.addsToItsAddress = false) :
    register ∉ registers (i.operand 1) := by
  have ht : takesConstant (i.operand 0) i = true := by
    simp only [takesConstant, Bool.and_eq_true, Bool.or_eq_true, beq_iff_eq, bne_iff_ne]
    exact ⟨⟨h.opcode, trivial⟩, h.src ▸ h.dst⟩
  rw [Instruction.addsToItsAddress, ht, Bool.true_and, h.src, Bool.eq_false_iff, ne_eq,
    List.contains_iff_mem] at hi
  exact hi

theorem Takes.mem_reads {i : Instruction} (h : Takes i register) {q : String}
    (hq : q ∈ registers (i.operand 1)) : q ∈ i.reads := by
  have : q ∈ registers (i.operand 0) ++ registers (i.operand 1) := List.mem_append_right _ hq
  rcases h.opcode with ho | ho <;> simpa only [Instruction.reads, ho] using this

theorem Takes.writes_set {i : Instruction} (h : Takes i register) :
    ({ i with operands := i.operands.set 0 constant } : Instruction).writes = i.writes := by
  obtain ⟨opcode, os, comment⟩ := i
  have hsecond : ({ opcode, operands := os.set 0 constant, comment } : Instruction).operand 1 =
      ({ opcode, operands := os, comment } : Instruction).operand 1 := by
    cases os <;> rfl
  rcases h.opcode with ho | ho
  all_goals
    cases ho
    rw [Instruction.writes, Instruction.writes, hsecond]

end

/-! ## Registers that are not needed -/

theorem reads_of_isNop {i : Instruction} (h : i.isNop = true) : i.reads = [] := by
  rw [Instruction.isNop, beq_iff_eq] at h
  rw [Instruction.reads, h]

section

variable {register constant : String} {code : List Instruction} (hs : Straight code)
  (hadd : ∀ i ∈ code, i.addsToItsAddress = false) (hconst : ∃ w, immediate? constant = some w)

include hs hadd hconst in
/-- **Where the load may go, nobody needs the register.** -/
theorem needsNot_foldUses (hdead : (foldUses register constant code).dead = true)
    (hused : (foldUses register constant code).used = false) :
    NeedsNot register (foldUses register constant code).code := by
  induction code with
  | nil =>
    rw [foldUses, List.contains_iff_mem] at hdead
    exact hdead
  | cons i code ih =>
    have hrest := ih hs.tail fun j hj => hadd j (List.mem_cons_of_mem _ hj)
    rw [foldUses_cons hs.head] at hdead hused ⊢
    dsimp only at hdead hused ⊢
    split at hdead
    · next hnop =>
      rw [if_pos hnop] at hused ⊢
      refine ⟨?_, .inr (hrest hdead hused)⟩
      rw [reads_of_isNop hnop]
      exact List.not_mem_nil
    · next hnop =>
      rw [if_neg hnop] at hused ⊢
      split at hdead
      · next ht =>
        rw [if_pos ht] at hused ⊢
        have htakes := takes_of_takesConstant ht
        refine ⟨?_, .inr (hrest hdead hused)⟩
        rw [htakes.reads_set hconst]
        exact htakes.not_mem_registers (hadd i List.mem_cons_self)
      · next ht =>
        rw [if_neg ht] at hused ⊢
        split at hdead
        · next hw =>
          rw [if_pos hw] at hused ⊢
          rw [Bool.eq_false_iff, ne_eq, List.contains_iff_mem] at hused
          exact ⟨hused, .inl (List.contains_iff_mem.1 hw)⟩
        · next hw =>
          rw [if_neg hw] at hused ⊢
          rw [Bool.or_eq_false_iff, Bool.eq_false_iff, ne_eq, List.contains_iff_mem] at hused
          exact ⟨hused.1, .inr (hrest hdead hused.2)⟩

include hs hconst in
/-- A register that is not needed is not needed once another constant has been folded. -/
theorem NeedsNot.foldUses {q : String} (h : NeedsNot q code) :
    NeedsNot q (foldUses register constant code).code := by
  induction code with
  | nil => exact h
  | cons i code ih =>
    obtain ⟨hr, hrest⟩ := h
    have hrest' := hrest.imp_right (ih hs.tail)
    rw [foldUses_cons hs.head]
    dsimp only
    split
    · exact ⟨hr, hrest'⟩
    · split
      · next ht =>
        have htakes := takes_of_takesConstant ht
        refine ⟨?_, ?_⟩
        · rw [htakes.reads_set hconst]
          exact fun hq => hr (htakes.mem_reads hq)
        · rw [htakes.writes_set]
          exact hrest'
      · split
        · exact ⟨hr, hrest⟩
        · exact ⟨hr, hrest'⟩

end

/-- Blocks in which constants can be folded: nothing transfers control, and nothing is added at its own
address. -/
structure Foldable (code : List Instruction) : Prop where
  straight : Straight code
  apart : ∀ i ∈ code, i.addsToItsAddress = false

namespace Foldable

variable {i : Instruction} {register constant : String} {code : List Instruction}

theorem tail (h : Foldable (i :: code)) : Foldable code :=
  ⟨h.straight.tail, fun j hj => h.apart j (List.mem_cons_of_mem _ hj)⟩

theorem foldUses (h : Foldable code) (hl : Loads i register constant) :
    Foldable (foldUses register constant code).code :=
  ⟨straight_foldUses h.straight,
    forall_foldUses h.straight h.apart fun _ _ hj => addsToItsAddress_set hl.immediate hj⟩

theorem needsNot (h : Foldable code) (hl : Loads i register constant)
    (hnop : (0 < (MicroC.foldUses register constant code).folded &&
      (MicroC.foldUses register constant code).dead &&
      !(MicroC.foldUses register constant code).used) = true) :
    NeedsNot register (MicroC.foldUses register constant code).code := by
  rw [Bool.and_eq_true, Bool.and_eq_true, Bool.not_eq_true'] at hnop
  exact needsNot_foldUses h.straight h.apart hl.immediate hnop.1.2 hnop.2

end Foldable

section

variable {code : List Instruction} {i j : Instruction} {register constant : String}

/-- A register that is not needed is not needed once all constants have been folded. -/
theorem NeedsNot.foldConstants (hf : Foldable code) {q : String} (h : NeedsNot q code) :
    NeedsNot q (foldConstants code).code := by
  fun_induction MicroC.foldConstants code with
  | case1 => exact h
  | case2 i code _ r ih =>
    exact ⟨h.1, h.2.imp_right (ih hf.tail)⟩
  | case3 i code register constant hi u r ih =>
    have hl := loads_of_constantLoad? hi
    have hrest := ih (hf.tail.foldUses hl)
    split
    · next hnop =>
      refine ⟨List.not_mem_nil, .inr (hrest ?_)⟩
      by_cases hq : q = register
      · rw [hq]
        exact hf.tail.needsNot hl hnop
      · refine (h.2.resolve_left fun hw => hq ?_).foldUses hf.tail.straight hl.immediate
        rw [Instruction.writes, hl.opcode] at hw
        dsimp only at hw
        rw [hl.dst, if_pos hl.inRegister] at hw
        exact List.mem_singleton.1 hw
    · exact ⟨h.1, h.2.imp_right fun hn => hrest (hn.foldUses hf.tail.straight hl.immediate)⟩

/-- **A load becomes a `nop` only where its register is not needed.** -/
theorem needsNot_of_nop (hf : Foldable code) {n : Nat} (hn : code[n]? = some i)
    (hi : constantLoad? i = some (register, constant)) (hnop : (foldConstants code).code[n]? = some .nop) :
    NeedsNot register ((foldConstants code).code.drop (n + 1)) := by
  fun_induction MicroC.foldConstants code generalizing n with
  | case1 => cases hn
  | case2 j code hj r ih =>
    cases n with
    | zero =>
      cases hn
      rw [hj] at hi
      cases hi
    | succ n => exact ih hf.tail hn hnop
  | case3 j code reg const hj u r =>
    rename_i ih
    have hl := loads_of_constantLoad? hj
    cases n with
    | zero =>
      cases hn
      rw [hj] at hi
      cases hi
      split at hnop
      · next hu => exact (hf.tail.needsNot hl hu).foldConstants (hf.tail.foldUses hl)
      · have := hl.opcode
        rw [Option.some.inj hnop] at this
        cases this
    | succ n =>
      have hm : (foldUses reg const code).code[n]? = some i :=
        getElem?_foldUses hf.tail.straight hn (loads_of_constantLoad? hi).opcode
      exact ih (hf.tail.foldUses hl) hm hnop

end

/-! ## Execution -/

/-- **The value of a register that is not needed does not matter.** -/
theorem NeedsNot.inOrder {code : List Instruction} (hs : Straight code) {r : Register}
    (h : NeedsNot r.name code) {c c' d : Cpu} (hcd : c.AgreeOn (· ≠ r) d)
    (hx : Act.inOrder code c = .ok () c') :
    ∃ d', Act.inOrder code d = .ok () d' ∧ c'.AgreeOn (fun q => q.name ∉ scratch) d' := by
  induction code generalizing c d with
  | nil =>
    rw [← Act.inOrder_nil.1 hx]
    refine ⟨d, rfl, hcd.mono fun q hq hqr => hq ?_⟩
    rw [hqr]
    exact h
  | cons i code ih =>
    obtain ⟨hr, hrest⟩ := h
    obtain ⟨e, hi, hx⟩ := Act.inOrder_cons.1 hx
    have hreads : ∀ q : Register, q.name ∈ i.reads → q ≠ r := fun q hq hqr => hr (hqr ▸ hq)
    obtain ⟨d₁, hd₁, hed⟩ := Instruction.parallel hs.head hreads c d hcd () e hi
    rcases hrest with hw | hrest
    · -- The register is overwritten, so nothing differs any more.
      have hall : e.AgreeOn (fun _ => True) d₁ := by
        refine hed.mono fun q _ => ?_
        by_cases hq : q = r
        · exact .inr (hq ▸ hw)
        · exact .inl hq
      obtain ⟨d', hd', hagree⟩ :=
        Act.Parallel.inOrder hs.tail (fun _ _ _ _ => trivial) e d₁ hall () c' hx
      exact ⟨d', Act.inOrder_cons.2 ⟨d₁, hd₁, hd'⟩, hagree.mono fun _ _ => trivial⟩
    · obtain ⟨d', hd', hagree⟩ := ih hs.tail hrest (hed.mono fun q hq => .inl hq) hx
      exact ⟨d', Act.inOrder_cons.2 ⟨d₁, hd₁, hd'⟩, hagree⟩

/-- Folding constants keeps what a block does, but for scratch registers. -/
theorem Foldable.inOrder {code : List Instruction} (hf : Foldable code) {c c' : Cpu}
    (h : Act.inOrder code c = .ok () c') :
    ∃ d, Act.inOrder (foldConstants code).code c = .ok () d ∧ c'.AgreeOn (fun q => q.name ∉ scratch) d := by
  fun_induction MicroC.foldConstants code generalizing c c' with
  | case1 => exact ⟨_, h, .refl _ _⟩
  | case2 i code _ r ih =>
    obtain ⟨e, hi, hrest⟩ := Act.inOrder_cons.1 h
    obtain ⟨d, hd, hagree⟩ := ih hf.tail hrest
    exact ⟨d, Act.inOrder_cons.2 ⟨e, hi, hd⟩, hagree⟩
  | case3 i code register constant hload u r =>
    rename_i ih
    have hl := loads_of_constantLoad? hload
    obtain ⟨e, hi, hrest⟩ := Act.inOrder_cons.1 h
    obtain ⟨q, w, rfl, hw, rfl⟩ := hl.act hi
    have hfold := inOrder_foldUses hf.tail.straight hw (c.get_set_self q w) hrest
    split
    · next hnop =>
      -- Without the load the register has its old value.
      have hcd : (c.set q w).AgreeOn (· ≠ q) c := ⟨rfl, rfl, rfl, fun p hp => (c.get_set_of_ne hp w).symm⟩
      obtain ⟨d₁, hd₁, hagree₁⟩ := (hf.tail.needsNot hl hnop).inOrder (hf.tail.foldUses hl).straight hcd hfold
      obtain ⟨d, hd, hagree⟩ := ih (hf.tail.foldUses hl) hd₁
      exact ⟨d, Act.inOrder_cons.2 ⟨c, rfl, hd⟩, hagree₁.trans hagree⟩
    · obtain ⟨d, hd, hagree⟩ := ih (hf.tail.foldUses hl) hfold
      exact ⟨d, Act.inOrder_cons.2 ⟨_, hi, hd⟩, hagree⟩

/-- **Folding constants keeps what a block does**, if nothing in it is added at its own address: wherever
the block succeeds, so does the new one, with the same stack, the same comparison and the same registers
but for scratch registers. A load is left out only where its register is not needed. -/
theorem foldConstants_inOrder {code : List Instruction} (hs : Straight code)
    (hadd : ∀ i ∈ code, i.addsToItsAddress = false) :
    (∀ c c', Act.inOrder code c = .ok () c' →
      ∃ d, Act.inOrder (foldConstants code).code c = .ok () d ∧ d.stack = c'.stack ∧ d.flags = c'.flags ∧
        d.returns = c'.returns ∧ ∀ r : Register, r.name ∉ scratch → d.get r = c'.get r) ∧
    ∀ n i register constant, code[n]? = some i → constantLoad? i = some (register, constant) →
      (foldConstants code).code[n]? = some .nop →
        NeedsNot register ((foldConstants code).code.drop (n + 1)) := by
  have hf : Foldable code := ⟨hs, hadd⟩
  refine ⟨fun c c' h => ?_, fun n i register constant => needsNot_of_nop hf⟩
  obtain ⟨d, hd, hagree⟩ := hf.inOrder h
  exact ⟨d, hd, hagree.stack, hagree.flags, hagree.returns, hagree.reg⟩

/-- Adds a constant to a register. -/
def addConstant : List Instruction :=
  [{ opcode := .movq, operands := ["$1", "%r12"] }, { opcode := .addq, operands := ["%r12", "%rax"] }]

/-- The register is not loaded any more, and the sum is the same. -/
theorem foldConstants_addConstant :
    (foldConstants addConstant).code = [.nop, { opcode := .addq, operands := ["$1", "%rax"] }] ∧
    Act.inOrder addConstant (Cpu.start (.replicate stackWords 0)) =
      .ok () (((Cpu.start (.replicate stackWords 0)).set .r12 1).set .rax 1) ∧
    (∃ d, Act.inOrder (foldConstants addConstant).code (Cpu.start (.replicate stackWords 0)) = .ok () d ∧
      d.get .rax = 1) ∧
    NeedsNot "%r12" ((foldConstants addConstant).code.drop 1) := by
  have hcode : (foldConstants addConstant).code =
      [.nop, { opcode := .addq, operands := ["$1", "%rax"] }] := by decide +kernel
  have hrun : Act.inOrder addConstant (Cpu.start (.replicate stackWords 0)) =
      .ok () (((Cpu.start (.replicate stackWords 0)).set .r12 1).set .rax 1) := by
    generalize (Vector.replicate stackWords 0 : Stack) = s
    rfl
  obtain ⟨hkeep, hdrop⟩ := foldConstants_inOrder (show Straight addConstant by decide) (by decide)
  obtain ⟨d, hd, -, -, -, hreg⟩ := hkeep _ _ hrun
  refine ⟨hcode, hrun, ⟨d, hd, ?_⟩, hdrop 0 _ "%r12" "$1" rfl (by decide) (by rw [hcode]; rfl)⟩
  rw [hreg .rax (by decide), Cpu.get_set_self]

/-- Adds the address of a word to the word. -/
def addAtAddress : List Instruction :=
  [{ opcode := .movq, operands := ["$2147418096", "%r12"] },
    { opcode := .addq, operands := ["%r12", "(%r12)"] }]

/-- The load goes, and with it the address. -/
theorem foldConstants_addAtAddress : (foldConstants addAtAddress).code =
    [.nop, { opcode := .addq, operands := ["$2147418096", "(%r12)"] }] := by
  decide +kernel

/-- **An addition at its own address loses the address**: the block runs, and what it is folded to does
not. -/
theorem foldConstants_loses_address :
    Straight addAtAddress ∧
    (∃ d, Act.inOrder addAtAddress (Cpu.start (.replicate stackWords 0)) = .ok () d) ∧
    Act.inOrder (foldConstants addAtAddress).code (Cpu.start (.replicate stackWords 0)) =
      .error (.invalidAddress 0) (Cpu.start (.replicate stackWords 0)) := by
  generalize (Vector.replicate stackWords 0 : Stack) = s
  refine ⟨by decide, ?_, ?_⟩
  · have hslot : slot? (2147418096 + 0 : Int64).toUInt64.toNat = some ⟨1, by decide⟩ := by decide
    have hadd : ∀ c : Cpu, c.get .r12 = 2147418096 →
        ∃ d, Act.execute .addq [.register .r12, .memory 0 .r12] c = .ok () d := by
      intro c hc
      have hread : Act.read (.memory 0 .r12) c = .ok (c.stack.get ⟨1, by decide⟩) c := by
        rw [Act.read_memory, hc]
        exact Act.load_of_slot hslot c
      show ∃ d, (Act.read (.memory 0 .r12) >>= fun w =>
        Act.write .addq (.memory 0 .r12) (w + c.get .r12)) c = .ok () d
      rw [Act.bind_of_ok hread]
      show ∃ d, Act.store (c.get .r12 + 0).toUInt64.toNat _ c = .ok () d
      rw [hc]
      exact ⟨_, Act.store_of_slot hslot _ c⟩
    obtain ⟨d, hd⟩ := hadd ((Cpu.start s).set .r12 2147418096) (Cpu.get_set_self _ _ _)
    exact ⟨d, Act.inOrder_cons.2 ⟨_, rfl, Act.inOrder_cons.2 ⟨d, hd, rfl⟩⟩⟩
  · rw [foldConstants_addAtAddress]
    have hzero : (Cpu.start s).get .r12 = 0 := by
      rw [Cpu.start, Cpu.get, Registers.get_set_of_ne _ (by decide), Registers.get_zero]
    have hread : Act.read (.memory 0 .r12) (Cpu.start s) = .error (.invalidAddress 0) (Cpu.start s) := by
      rw [Act.read_memory, hzero]
      exact Act.load_of_none (by decide) _
    have hadd : Act.execute .addq [.immediate 2147418096, .memory 0 .r12] (Cpu.start s) =
        .error (.invalidAddress 0) (Cpu.start s) := by
      show (Act.read (.memory 0 .r12) >>= fun w => Act.write .addq (.memory 0 .r12) (w + 2147418096))
        (Cpu.start s) = .error (.invalidAddress 0) (Cpu.start s)
      exact Act.bind_of_error hread _
    show (Act.execute .addq [.immediate 2147418096, .memory 0 .r12] >>= fun _ => Act.inOrder [])
      (Cpu.start s) = .error (.invalidAddress 0) (Cpu.start s)
    exact Act.bind_of_error hadd _

end MicroC
