import MicroC.Proofs.Machine.Summaries
import MicroC.Proofs.Peephole.FixedPoint

/-!
# Joining a push and a pop

`pushq X; …; popq Y` takes the value of `X` through a word of the stack, `…; movq X, Y` takes it at the end. The
instructions in between do not see the difference: they leave the stack pointer and what `X` denotes alone, and
unless one of them has an operand at the pushed word they do not notice the word either.

* `Avoids`: no operand of a block is at an address while the block runs.
* `Cpu.Apart`: two processors that differ in their stack pointers and in one word.
* `Cpu.Apart.inOrder`: what stands in between does the same to both.
* **`joinPop?_sound`**: the joined instructions end with the same registers and the same words, but for the
  pushed one.
-/

namespace MicroC

open Convention Operand

/-! ## What is joined -/

section

variable {i push pop : Instruction} {past window before joined : List Instruction} {r : Register}

/-- The search for a push passes instructions that leave the stack pointer alone. -/
theorem passed_of_findPush (h : findPush past = some (window, push, before)) :
    ∀ i ∈ window, i.isNop = true ∨ i.opcode = .movq ∧ i.mentions stackPointer = false := by
  induction past generalizing window with
  | nil => cases h
  | cons i past ih =>
    have hpassed : (i.isNop = true ∨ i.opcode = .movq ∧ i.mentions stackPointer = false) →
        (findPush past).map (fun found => (i :: found.1, found.2)) = some (window, push, before) →
          ∀ j ∈ window, j.isNop = true ∨ j.opcode = .movq ∧ j.mentions stackPointer = false := by
      intro hi hx
      obtain ⟨⟨w, p, b⟩, hw, heq⟩ := Option.map_eq_some_iff.1 hx
      cases heq
      exact List.forall_mem_cons.2 ⟨hi, ih hw⟩
    rw [findPush] at h
    split at h
    · cases h
      exact fun i hi => absurd hi List.not_mem_nil
    · next hop => exact hpassed (.inl (isNop_iff.2 hop)) h
    · next hop =>
      split at h
      · cases h
      · next hm => exact hpassed (.inr ⟨hop, Bool.eq_false_iff.2 hm⟩) h
    · cases h

/-- What is joined, and what it becomes. -/
theorem joinPop?_joins (hpop : pop.opcode = .popq) (h : joinPop? past pop = some joined) :
    ∃ before push window, past.reverse = before ++ push :: window ∧ Joins push window pop ∧
      ¬ (isMemory (push.operand 0) = true ∧ isMemory (pop.operand 0) = true) ∧
      joined.reverse = before ++ .nop :: (window ++
        [{ opcode := .movq, operands := [push.operand 0, pop.operand 0], comment := push.comment }]) := by
  unfold joinPop? at h
  split at h
  · cases h
  · next window push before hfind =>
    dsimp only at h
    split at h
    · next hall =>
      cases h
      rw [Bool.and_eq_true, Bool.not_eq_true', List.all_eq_true] at hall
      obtain ⟨rfl, hpush⟩ := eq_of_findPush hfind
      refine ⟨before.reverse, push, window.reverse, by simp, ⟨hpush, hpop, fun i hi => ?_⟩, ?_, by simp⟩
      · have hi := List.mem_reverse.1 hi
        exact ⟨passed_of_findPush hfind i hi, hall.1 i hi⟩
      · rw [← Bool.and_eq_true, hall.2]
        exact Bool.false_ne_true
    · cases h

/-- An operand names the registers that are written in it. -/
theorem not_mem_of_not_mentions (h : i.mentions r.name = false) (n : Nat) :
    r.name ∉ registers (i.operand n) := by
  intro hr
  rw [Instruction.mentions, List.any_eq_false] at h
  rw [Instruction.operand, List.getD_eq_getElem?_getD] at hr
  cases ho : i.operands[n]? with
  | none =>
    rw [ho] at hr
    cases hr
  | some o =>
    rw [ho] at hr
    exact h o (List.mem_of_getElem? ho) (List.contains_iff_mem.2 hr)

/-- What may stand between a push and a pop works on data, and neither reads nor writes the stack pointer. -/
structure Instruction.Passive (i : Instruction) : Prop where
  data : i.opcode.transfersControl = false
  notPush : i.opcode ≠ .pushq
  notCmov : i.opcode.isCmov = false
  reads : stackPointer ∉ i.reads
  writes : stackPointer ∉ i.writes
  /-- The words it goes to are at its operands. -/
  accesses : ∀ args c, Act.dataAccesses i.opcode args c ⊆ args.flatMap (Arg.addresses c)

theorem Movable.passive {src : String} (h : Movable src i) : i.Passive := by
  have hoperand : ∀ (args : List Arg) (n : Nat) (c : Cpu),
      Act.operandAddresses args n c ⊆ args.flatMap (Arg.addresses c) := by
    intro args n c a ha
    unfold Act.operandAddresses at ha
    split at ha
    · next b hb => exact List.mem_flatMap.2 ⟨b, List.mem_of_getElem? hb, ha⟩
    · cases ha
  rcases h.1 with hnop | ⟨hmov, hno⟩
  · have hop := isNop_iff.1 hnop
    refine ⟨?_, ?_, ?_, ?_, ?_, ?_⟩
    · rw [hop]; rfl
    · rw [hop]; decide
    · rw [hop]; rfl
    · rw [Instruction.reads, hop]; exact List.not_mem_nil
    · rw [Instruction.writes, hop]; exact List.not_mem_nil
    · intro args c
      rw [hop]
      exact List.nil_subset _
  · have hnone := not_mem_of_not_mentions (r := .rsp) hno
    refine ⟨?_, ?_, ?_, ?_, ?_, ?_⟩
    · rw [hmov]; rfl
    · rw [hmov]; decide
    · rw [hmov]; rfl
    · rw [Instruction.reads, hmov]
      intro h
      rcases List.mem_append.1 h with h | h
      · exact hnone 0 h
      · split at h
        · exact hnone 1 h
        · cases h
    · rw [Instruction.writes, hmov]
      dsimp only
      intro h
      split at h
      · have hreg := hnone 1
        rw [← List.mem_singleton.1 h, show stackPointer = Register.rsp.name from rfl,
          (isRegisterName .rsp).registers] at hreg
        exact hreg List.mem_cons_self
      · cases h
    · intro args c
      rw [hmov]
      exact List.append_subset.2 ⟨hoperand args 0 c, hoperand args 1 c⟩

end

/-! ## Operands of a block -/

/-- No operand in memory is at an address, from a processor on through all of a block. -/
def Avoids (address : Nat) : List Instruction → Cpu → Prop
  | [], _ => True
  | i :: code, c =>
    (∀ o ∈ i.operands, ∀ a, arg? o = some a → address ∉ a.addresses c) ∧
      ∀ d, i.act c = .ok () d → Avoids address code d

/-- Two processors that differ in their stack pointers and in one word of the stack. -/
structure Cpu.Apart (k : Fin stackWords) (c d : Cpu) : Prop where
  alike : c.Alike d
  word : ∀ j, j ≠ k → d.stack.get j = c.stack.get j

section

variable {i : Instruction} {code : List Instruction} {c c' d : Cpu} {k : Fin stackWords} {address : Nat}

theorem slot?_ne (hk : slot? address = some k) {a : Nat} (ha : a ≠ address) : slot? a ≠ some k := fun h =>
  ha ((address_of_slot? h).trans (address_of_slot? hk).symm)

theorem Instruction.act_ok (h : i.act c = .ok () d) :
    ∃ args, decodeArgs i.opcode i.operands = .ok args ∧ Act.execute i.opcode args c = .ok () d := by
  rw [Instruction.act] at h
  cases hargs : decodeArgs i.opcode i.operands with
  | ok args =>
    rw [hargs] at h
    exact ⟨args, rfl, h⟩
  | error e =>
    rw [hargs] at h
    cases h

/-- **An instruction that avoids the word** does the same to both processors, and leaves the word alone. -/
theorem Cpu.Apart.act (hi : i.Passive) (hk : slot? address = some k) (h : c.Apart k d)
    (havoids : ∀ o ∈ i.operands, ∀ a, arg? o = some a → address ∉ a.addresses c) (hx : i.act c = .ok () c') :
    (∃ d', i.act d = .ok () d' ∧ c'.Apart k d') ∧ c'.stack.get k = c.stack.get k := by
  obtain ⟨args, hargs, -⟩ := Instruction.act_ok hx
  have hgoes : i.act.GoesTo c (Act.dataAccesses i.opcode args c) := by
    rw [Instruction.act_eq hargs]
    exact .execute _ _
  have hspares : ∀ a ∈ Act.dataAccesses i.opcode args c, slot? a ≠ some k := by
    intro a ha
    refine slot?_ne hk ?_
    rintro rfl
    obtain ⟨b, hb, hab⟩ := List.mem_flatMap.1 (hi.accesses args c ha)
    have hmem : some b ∈ i.operands.map arg? := map_some_of_decodeArgs hargs ▸ List.mem_map_of_mem hb
    obtain ⟨o, ho, hob⟩ := List.mem_map.1 hmem
    exact havoids o ho b hob hab
  have hkept := hgoes.writes k hspares
  rw [Act.behind, hx] at hkept
  refine ⟨?_, hkept⟩
  -- First the words of the stack, then the stack pointer.
  have hagree : ∀ as : List Nat, (∀ a ∈ as, slot? a ≠ some k) → c.AgreeAt as { c with stack := d.stack } :=
    fun as has => ⟨rfl, rfl, rfl, fun a ha j hj => h.word j fun hjk => has a ha (hjk ▸ hj)⟩
  obtain ⟨m, hm, hcm⟩ := hgoes.reads () c' hx _ (List.Subset.refl _) _ (hagree _ hspares)
  have hsp : ({ c with stack := d.stack } : Cpu).AgreeOn (fun r => r ≠ .rsp) d :=
    ⟨rfl, h.alike.flags, h.alike.returns, h.alike.reg⟩
  obtain ⟨d', hd', hmd⟩ := Instruction.parallel hi.data (S := fun r => r ≠ .rsp)
    (fun q hq hr => hi.reads (show Register.rsp.name ∈ i.reads from hr ▸ hq)) _ _ hsp () m hm
  refine ⟨d', hd', ⟨fun r hr => ?_, hmd.flags.trans hcm.flags, hmd.returns.trans hcm.returns⟩, fun j hj => ?_⟩
  · rw [hmd.reg r (.inl hr), hcm.get]
  · have hj' : slot? (addr (j.1 + 1)).toUInt64.toNat = some j := slot?_addr j.isLt
    obtain ⟨m', hm', hcm'⟩ := hgoes.reads () c' hx ((addr (j.1 + 1)).toUInt64.toNat :: _) (List.subset_cons_self _ _) _
      (hagree _ (List.forall_mem_cons.2 ⟨fun hjk => hj (Option.some.inj (hj'.symm.trans hjk)), hspares⟩))
    rw [hm] at hm'
    cases hm'
    rw [hmd.stack]
    exact hcm'.word _ List.mem_cons_self j hj'

/-- **A block that avoids the word** does the same to both processors, and leaves the word alone. -/
theorem Cpu.Apart.inOrder (hcode : ∀ i ∈ code, i.Passive) (hk : slot? address = some k) (h : c.Apart k d)
    (havoids : Avoids address code c) (hx : Act.inOrder code c = .ok () c') :
    (∃ d', Act.inOrder code d = .ok () d' ∧ c'.Apart k d') ∧ c'.stack.get k = c.stack.get k := by
  induction code generalizing c d with
  | nil =>
    cases hx
    exact ⟨⟨d, rfl, h⟩, rfl⟩
  | cons i code ih =>
    obtain ⟨hi, hcode⟩ := List.forall_mem_cons.1 hcode
    obtain ⟨e, hce, hec⟩ := Act.inOrder_cons.1 hx
    obtain ⟨⟨e', hde, happart⟩, hkept⟩ := h.act hi hk havoids.1 hce
    obtain ⟨⟨d', hed, happart'⟩, hkept'⟩ := ih hcode happart (havoids.2 e hce) hec
    exact ⟨⟨d', Act.inOrder_cons.2 ⟨e', hde, hed⟩, happart'⟩, hkept'.trans hkept⟩

theorem Act.Keeps.inOrder {γ : Type} {view : Cpu → γ} (h : ∀ i ∈ code, i.act.Keeps view) :
    (Act.inOrder code).Keeps view := by
  induction code with
  | nil => exact .pure ()
  | cons i code ih =>
    obtain ⟨hi, hcode⟩ := List.forall_mem_cons.1 h
    exact .bind hi fun _ => ih hcode

theorem Movable.keeps {src : String} (h : Movable src i) {r : Register} (hr : r.name ∈ registers src) :
    i.act.Keeps fun c => c.get r := by
  refine Instruction.keeps h.passive.data fun hw => ?_
  have hpreserves := h.2
  rw [preserves, Bool.or_eq_true] at hpreserves
  rcases hpreserves with hnop | hp
  · rw [Instruction.writes, isNop_iff.1 hnop] at hw
    cases hw
  · rw [Bool.and_eq_true, List.all_eq_true] at hp
    have hno := hp.1 _ hr
    rw [Bool.not_eq_true', ← Bool.not_eq_true, List.contains_iff_mem] at hno
    exact hno hw

theorem Movable.keeps_stack {src : String} (h : Movable src i) (hm : isMemory src = true) :
    i.act.Keeps Cpu.stack := by
  refine Instruction.keeps_stack h.passive.notPush ?_ fun hc => ?_
  · have hpreserves := h.2
    rw [preserves, Bool.or_eq_true] at hpreserves
    rcases hpreserves with hnop | hp
    · rw [Instruction.writesMemory, isNop_iff.1 hnop]
    · rw [Bool.and_eq_true, hm, Bool.true_and, Bool.not_eq_true'] at hp
      exact hp.2
  · rw [h.passive.notCmov] at hc
    cases hc

end

/-! ## The push, the pop and the move -/

namespace Act

variable {α β : Type} {c d : Cpu} {w : Int64}

theorem bind_eq_ok {x : Act α} {f : α → Act β} {b : β} :
    (x >>= f) c = .ok b d ↔ ∃ a e, x c = .ok a e ∧ f a e = .ok b d := by
  cases hx : x c with
  | ok a e =>
    rw [bind_of_ok hx]
    refine ⟨fun h => ⟨a, e, rfl, h⟩, fun ⟨a', e', he, h⟩ => ?_⟩
    cases he
    exact h
  | error x e =>
    rw [bind_of_error hx]
    exact ⟨nofun, nofun⟩

theorem operand_eq_ok {opcode : Opcode} {args : List Arg} {n : Nat} {f : Arg → Act β} {b : β} :
    (operand opcode args n >>= f) c = .ok b d ↔ ∃ a, args[n]? = some a ∧ f a c = .ok b d := by
  rw [operand_bind]
  cases args[n]? with
  | none => exact ⟨nofun, nofun⟩
  | some a =>
    refine ⟨fun h => ⟨a, rfl, h⟩, fun ⟨a', ha, h⟩ => ?_⟩
    cases ha
    exact h

theorem push_ok (h : push w c = .ok () d) : ∃ k, slot? c.pushAddress = some k ∧
    d = ({ c with stack := c.stack.set k.1 w k.isLt }.set .rsp (c.get .rsp - Int64.ofNat wordSize)) := by
  by_cases hb : (c.get .rsp - Int64.ofNat wordSize).toUInt64.toNat < stackBottom
  · rw [push_of_below w rfl hb] at h
    cases h
  · cases hs : slot? (c.get .rsp - Int64.ofNat wordSize).toUInt64.toNat with
    | none =>
      rw [push_of_none w rfl hb hs] at h
      cases h
    | some k =>
      rw [push_of_slot w rfl hb hs] at h
      cases h
      exact ⟨k, hs, rfl⟩

theorem inOrder_append {xs ys : List Instruction} :
    inOrder (xs ++ ys) c = .ok () d ↔ ∃ e, inOrder xs c = .ok () e ∧ inOrder ys e = .ok () d := by
  induction xs generalizing c with
  | nil => exact ⟨fun h => ⟨c, rfl, h⟩, fun ⟨e, he, h⟩ => by cases he; exact h⟩
  | cons i xs ih =>
    rw [List.cons_append, inOrder_cons]
    constructor
    · rintro ⟨c₁, h₁, h⟩
      obtain ⟨e, he, h⟩ := ih.1 h
      exact ⟨e, inOrder_cons.2 ⟨c₁, h₁, he⟩, h⟩
    · rintro ⟨e, he, h⟩
      obtain ⟨c₁, h₁, he⟩ := inOrder_cons.1 he
      exact ⟨c₁, h₁, ih.2 ⟨e, he, h⟩⟩

end Act

section

variable {i : Instruction} {c c' d e : Cpu} {k : Fin stackWords} {w : Int64} {a : Arg}

theorem Instruction.act_pushq (hop : i.opcode = .pushq) (h : i.act c = .ok () d) :
    ∃ a w, arg? (i.operand 0) = some a ∧ Act.read a c = .ok w c ∧ Act.push w c = .ok () d := by
  obtain ⟨args, hargs, hx⟩ := Instruction.act_ok h
  rw [hop] at hx
  obtain ⟨a, ha, hx⟩ := Act.operand_eq_ok.1 hx
  obtain ⟨w, e, hread, hpush⟩ := Act.bind_eq_ok.1 hx
  obtain rfl : e = c := (Act.Keeps.read a : Act.Keeps id _) c w e hread
  exact ⟨a, w, getElem?_eq_arg? hargs 0 ▸ ha, hread, hpush⟩

theorem Instruction.act_popq (hop : i.opcode = .popq) (h : i.act c = .ok () d) :
    ∃ a w e, arg? (i.operand 0) = some a ∧ Act.pop c = .ok w e ∧ Act.write .popq a w e = .ok () d := by
  obtain ⟨args, hargs, hx⟩ := Instruction.act_ok h
  rw [hop] at hx
  obtain ⟨w, e, hpop, hx⟩ := Act.bind_eq_ok.1 hx
  obtain ⟨a, ha, hwrite⟩ := Act.operand_eq_ok.1 hx
  exact ⟨a, w, e, getElem?_eq_arg? hargs 0 ▸ ha, hpop, hwrite⟩

theorem Instruction.act_movq {src dst : String} {b : Arg} (hsrc : arg? src = some a) (hdst : arg? dst = some b)
    (hread : Act.read a c = .ok w c) (comment : Option String) :
    Instruction.act { opcode := .movq, operands := [src, dst], comment } c = Act.write .movq b w c := by
  have hargs : decodeArgs .movq [src, dst] = .ok [a, b] := by
    rw [decodeArgs, decodeArgs, hsrc, hdst]
    rfl
  rw [Instruction.act_eq hargs]
  exact Act.bind_of_ok hread _

/-- An operand has the same value where its registers are the same and, if it is in memory, the stack is. -/
theorem Act.read_of_same {src : String} (ha : arg? src = some a) (hread : Act.read a c = .ok w c)
    (hreg : ∀ r : Register, r.name ∈ registers src → d.get r = c.get r)
    (hstack : isMemory src = true → d.stack = c.stack) : Act.read a d = .ok w d := by
  have htells := arg?_tells ha
  have hreg' : ∀ r ∈ a.registers, d.get r = c.get r := by
    intro r hr
    refine hreg r ?_
    rw [htells.registers]
    exact List.mem_map_of_mem hr
  cases a with
  | immediate v =>
    cases hread
    rfl
  | register r =>
    cases hread
    show EStateM.Result.ok _ _ = _
    rw [hreg' r List.mem_cons_self]
  | memory displacement base =>
    rw [Act.read_memory] at hread ⊢
    rw [hreg' base List.mem_cons_self]
    cases hs : slot? (c.get base + displacement).toUInt64.toNat with
    | none =>
      rw [Act.load_of_none hs] at hread
      cases hread
    | some j =>
      rw [Act.load_of_slot hs] at hread ⊢
      cases hread
      rw [hstack htells.isMemory]

/-- A word is written to both processors if they have one stack pointer. -/
theorem Cpu.Apart.write (h : c.Apart k d) (hrsp : d.get .rsp = c.get .rsp) {opcode : Opcode} (opcode' : Opcode)
    (hx : Act.write opcode a w c = .ok () c') :
    ∃ d', Act.write opcode' a w d = .ok () d' ∧ c'.Apart k d' ∧ d'.get .rsp = c'.get .rsp := by
  have hreg : ∀ r, d.get r = c.get r := by
    intro r
    by_cases hr : r = .rsp
    · rw [hr, hrsp]
    · exact h.alike.reg r hr
  cases a with
  | immediate v => cases hx
  | register r =>
    cases hx
    have hset : ∀ q, (d.set r w).get q = (c.set r w).get q := by
      intro q
      by_cases hq : q = r
      · rw [hq, Cpu.get_set_self, Cpu.get_set_self]
      · rw [Cpu.get_set_of_ne _ hq, Cpu.get_set_of_ne _ hq, hreg]
    exact ⟨_, rfl, ⟨⟨fun q _ => hset q, h.alike.flags, h.alike.returns⟩, h.word⟩, hset .rsp⟩
  | memory displacement base =>
    have hwrite : ∀ (o : Opcode) (c : Cpu), Act.write o (.memory displacement base) w c =
        Act.store (c.get base + displacement).toUInt64.toNat w c := fun _ _ => rfl
    rw [hwrite] at hx ⊢
    rw [hreg base]
    cases hs : slot? (c.get base + displacement).toUInt64.toNat with
    | none =>
      rw [Act.store_of_none hs] at hx
      cases hx
    | some i =>
      rw [Act.store_of_slot hs] at hx ⊢
      cases hx
      refine ⟨_, rfl, ⟨⟨h.alike.reg, h.alike.flags, h.alike.returns⟩, fun j hj => ?_⟩, hrsp⟩
      show (d.stack.set i.1 w i.isLt)[j.1] = (c.stack.set i.1 w i.isLt)[j.1]
      rw [Vector.getElem_set, Vector.getElem_set]
      split
      · rfl
      · exact h.word j hj

end

/-- **One joining is sound.** Where a pop is joined with a push, and the push, what stands in between and the pop
can be executed while no operand in between is at the pushed word, what they become can be executed as well
and ends with the same registers, flags and return addresses, and with the same words but for the pushed
one. -/
theorem joinPop?_sound {code : List Instruction} {pop : Instruction} {joined : List Instruction}
    (hpop : pop.opcode = .popq) (h : joinPop? code.reverse pop = some joined) :
    ∃ before push window mov, code = before ++ push :: window ∧
      joined.reverse = before ++ .nop :: (window ++ [mov]) ∧ push.opcode = .pushq ∧
      mov.opcode = .movq ∧ mov.operands = [push.operand 0, pop.operand 0] ∧
      ∀ c d, Act.inOrder (push :: (window ++ [pop])) c = .ok () d →
        (∀ e, push.act c = .ok () e → Avoids c.pushAddress window e) →
        ∃ d', Act.inOrder (.nop :: (window ++ [mov])) c = .ok () d' ∧ (∀ r, d'.get r = d.get r) ∧
          d'.flags = d.flags ∧ d'.returns = d.returns ∧
          ∀ j, slot? c.pushAddress ≠ some j → d'.stack.get j = d.stack.get j := by
  obtain ⟨before, push, window, hcode, hjoins, -, hjoined⟩ := joinPop?_joins hpop h
  rw [List.reverse_reverse] at hcode
  refine ⟨before, push, window, _, hcode, hjoined, hjoins.isPush, rfl, rfl, fun c d hrun havoids => ?_⟩
  have hpassive : ∀ i ∈ window, i.Passive := fun i hi => (hjoins.movable i hi).passive
  have hrsp : (Act.inOrder window).Keeps fun c => c.get .rsp :=
    .inOrder fun i hi => Instruction.keeps (hpassive i hi).data (hpassive i hi).writes
  obtain ⟨c₁, hpush, hrun⟩ := Act.inOrder_cons.1 hrun
  obtain ⟨c₂, hwindow, hrun⟩ := Act.inOrder_append.1 hrun
  obtain ⟨c₃, hact, hend⟩ := Act.inOrder_cons.1 hrun
  cases hend
  have hspared := havoids c₁ hpush
  -- The push.
  obtain ⟨a, w, ha, hread, hpush⟩ := Instruction.act_pushq hjoins.isPush hpush
  obtain ⟨k, hk, rfl⟩ := Act.push_ok hpush
  have hstart : Cpu.Apart k
      ({ c with stack := c.stack.set k.1 w k.isLt }.set .rsp (c.get .rsp - Int64.ofNat wordSize)) c := by
    refine ⟨⟨fun r hr => (Cpu.get_set_of_ne _ hr _).symm, rfl, rfl⟩, fun j hj => ?_⟩
    exact (Vector.getElem_set_ne k.isLt j.isLt fun hkj => hj (Fin.ext hkj.symm)).symm
  -- What stands in between.
  obtain ⟨⟨e, hwindow', happart⟩, hkept⟩ := hstart.inOrder hpassive hk hspared hwindow
  have hword : c₂.stack.get k = w := hkept.trans (Vector.getElem_set_self k.isLt)
  have hbelow : c₂.get .rsp = c.get .rsp - Int64.ofNat wordSize :=
    (hrsp _ _ _ hwindow).trans (Cpu.get_set_self _ _ _)
  -- The pop, and the move in its place.
  obtain ⟨b, v, p, hb, hpopped, hwrite⟩ := Instruction.act_popq hpop hact
  have hslot : slot? c₂.rsp = some k := by
    rw [Cpu.rsp, hbelow]
    exact hk
  rw [Act.pop_of_slot hslot, hword] at hpopped
  cases hpopped
  have happart' : c₂.popped.Apart k e :=
    ⟨⟨fun r hr => (happart.alike.reg r hr).trans (Cpu.get_set_of_ne _ hr _).symm, happart.alike.flags,
      happart.alike.returns⟩, happart.word⟩
  have hrsp' : e.get .rsp = c₂.popped.get .rsp := by
    rw [show e.get .rsp = c.get .rsp from hrsp _ _ _ hwindow', Cpu.popped, Cpu.get_set_self, hbelow,
      Int64.sub_add_cancel]
  obtain ⟨d', hd', hfinal, hlast⟩ := happart'.write hrsp' .movq hwrite
  have hread' : Act.read a e = .ok w e := by
    refine Act.read_of_same ha hread (fun r hr => ?_) fun hm => ?_
    · exact Act.Keeps.inOrder (fun i hi => (hjoins.movable i hi).keeps hr) _ _ _ hwindow'
    · exact Act.Keeps.inOrder (fun i hi => (hjoins.movable i hi).keeps_stack hm) _ _ _ hwindow'
  refine ⟨d', Act.inOrder_cons.2 ⟨c, rfl, Act.inOrder_append.2 ⟨e, hwindow', Act.inOrder_cons.2 ⟨d', ?_, rfl⟩⟩⟩,
    fun r => ?_, hfinal.alike.flags, hfinal.alike.returns, fun j hj => hfinal.word j fun hjk => hj (hjk ▸ hk)⟩
  · rw [Instruction.act_movq ha hb hread']
    exact hd'
  · by_cases hr : r = .rsp
    · rw [hr, hlast]
    · exact hfinal.alike.reg r hr

/-- A register goes through the stack, past the load of another. -/
def throughStack : List Instruction :=
  [{ opcode := .pushq, operands := ["%rax"] }, { opcode := .movq, operands := ["$1", "%rcx"] }]

/-- What was in `%rax` ends up in `%rdx` without the stack. -/
theorem joinPop?_sound_throughStack :
    let moved : List Instruction :=
      [{ opcode := .movq, operands := ["$1", "%rcx"] }, { opcode := .movq, operands := ["%rax", "%rdx"] }]
    joinPop? throughStack.reverse { opcode := .popq, operands := ["%rdx"] } = some (moved.reverse ++ [.nop]) ∧
      ∃ d, Act.inOrder (.nop :: moved) ((Cpu.start (.replicate stackWords 0)).set .rax 7) = .ok () d ∧
        d.get .rdx = 7 := by
  intro moved
  have hjoin : joinPop? throughStack.reverse { opcode := .popq, operands := ["%rdx"] } =
      some (moved.reverse ++ [.nop]) := by decide +kernel
  refine ⟨hjoin, ?_⟩
  obtain ⟨before, push, window, mov, hcode, hjoined, hpush, -, -, hsound⟩ := joinPop?_sound rfl hjoin
  obtain ⟨rfl, rfl, rfl⟩ : before = [] ∧ push = { opcode := .pushq, operands := ["%rax"] } ∧
      window = [{ opcode := .movq, operands := ["$1", "%rcx"] }] := by
    rcases before with - | ⟨i, - | ⟨j, before⟩⟩
    · cases hcode
      exact ⟨rfl, rfl, rfl⟩
    · cases hcode
      cases hpush
    · cases before <;> cases hcode
  cases hjoined
  generalize (Vector.replicate stackWords 0 : Stack) = s at hsound ⊢
  have hholds : ((Cpu.start s).set .rax 7).Holds [] :=
    ⟨by rw [Cpu.get_set_of_ne _ (by decide), Cpu.start, Cpu.get, Registers.get_set_self]; rfl, nofun⟩
  obtain ⟨c₁, hpush, hholds₁, -⟩ := Act.push_of_lt hholds (by decide) 7
  obtain ⟨c₂, hpop, -, -⟩ := Act.pop_of_holds (hholds₁.set (r := .rcx) (by decide) 1)
  have havoids : ∀ address e, Avoids address [{ opcode := .movq, operands := ["$1", "%rcx"] }] e := by
    intro address e
    refine ⟨fun o ho a ha => ?_, fun _ _ => trivial⟩
    rcases List.mem_cons.1 ho with rfl | ho
    · cases ha
      exact List.not_mem_nil
    · cases List.mem_singleton.1 ho
      cases ha
      exact List.not_mem_nil
  obtain ⟨d, hd, hreg, -⟩ := hsound ((Cpu.start s).set .rax 7) (c₂.set .rdx 7)
    (Act.inOrder_cons.2 ⟨c₁, hpush, Act.inOrder_cons.2 ⟨_, rfl, Act.inOrder_cons.2
      ⟨_, Act.bind_of_ok hpop (Act.write .popq (.register .rdx)), rfl⟩⟩⟩) fun e _ => havoids _ e
  exact ⟨d, hd, by rw [hreg, Cpu.get_set_self]⟩

end MicroC
