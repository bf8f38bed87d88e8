import MicroC.Proofs.Machine.Frame
import MicroC.Proofs.Peephole.Flow

/-!
# What instructions on data depend on

The registers that an instruction is said to read and to write, as far as the processor goes by them.

* `arg?_tells`: the text of an operand names the registers of what it denotes.
* `Cpu.AgreeOn`: two processors that differ in some registers only.
* **`Instruction.keeps`**: registers that are not written keep their values.
* **`Instruction.parallel`**: nothing depends on registers that are not read.
-/

namespace MicroC

open Convention Operand

/-! ## Operands -/

/-- What the text of an operand tells of what it denotes. -/
structure Tells (o : String) (a : Arg) : Prop where
  registers : registers o = a.registers.map Register.name
  isRegister : isRegister o = a.isRegister
  isMemory : isMemory o = a.isMemory
  immediate? : immediate? o = a.immediate?

theorem registersIn_eq_nil {cs : List Char} (h : '%' ∉ cs) : registersIn cs = [] := by
  rw [← List.append_nil cs, registersIn_append h]
  rfl

/-- A numeral consists of digits and perhaps a sign. -/
theorem mem_of_int? {cs : List Char} {i : Int} (h : Decimal.int? cs = some i) {c : Char} (hc : c ∈ cs) :
    c = '-' ∨ c = '+' ∨ c.isDigit = true := by
  have hdigits : ∀ {ds : List Char} {n : Nat}, Decimal.nat? ds = some n → ∀ c ∈ ds, c.isDigit = true := by
    intro ds n hn
    unfold Decimal.nat? at hn
    split at hn
    · next hds => exact List.all_eq_true.1 hds.2
    · cases hn
  unfold Decimal.int? at h
  split at h
  · obtain ⟨n, hn, -⟩ := Option.map_eq_some_iff.1 h
    rcases List.mem_cons.1 hc with rfl | hc
    · exact .inl rfl
    · exact .inr (.inr (hdigits hn c hc))
  · obtain ⟨n, hn, -⟩ := Option.map_eq_some_iff.1 h
    rcases List.mem_cons.1 hc with rfl | hc
    · exact .inr (.inl rfl)
    · exact .inr (.inr (hdigits hn c hc))
  · obtain ⟨n, hn, -⟩ := Option.map_eq_some_iff.1 h
    exact .inr (.inr (hdigits hn c hc))

theorem not_mem_of_int? {cs : List Char} {i : Int} (h : Decimal.int? cs = some i) :
    '%' ∉ cs ∧ '(' ∉ cs ∧ '$' ∉ cs := by
  refine ⟨?_, ?_, ?_⟩
  all_goals
    intro hc
    rcases mem_of_int? h hc with hc | hc | hc <;> exact absurd hc (by decide)

theorem tells_immediate {o : String} {ds : List Char} {w : Int64} (ho : o.toList = '$' :: ds)
    (hw : (Decimal.int? ds).bind Decimal.word? = some w) : Tells o (.immediate w) := by
  obtain ⟨i, hi, -⟩ := Option.bind_eq_some_iff.1 hw
  obtain ⟨hp, hb, -⟩ := not_mem_of_int? hi
  refine ⟨?_, ?_, ?_, ?_⟩
  · rw [registers, ho, registersIn, if_neg (by decide)]
    exact registersIn_eq_nil hp
  · rw [isRegister, ho]
    rfl
  · rw [isMemory, ho, List.any_cons, List.any_eq_false.2]
    · rfl
    · intro c hc hcb
      rw [beq_iff_eq] at hcb
      exact hb (hcb ▸ hc)
  · rw [immediate?, ho]
    exact hw

theorem tells_register (r : Register) : Tells r.name (.register r) := by
  have h := isRegisterName r
  exact ⟨h.registers, h.isRegister, h.isMemory, h.immediate⟩

/-- The text of a memory operand: a displacement, and a register in parentheses. -/
theorem text_of_memoryArg? {cs : List Char} {a : Arg} (h : memoryArg? cs = some a) :
    ∃ ds d b, a = .memory d b ∧ cs = ds ++ '(' :: (b.name.toList ++ [')']) ∧
      (ds = [] ∨ ∃ i, Decimal.int? ds = some i) := by
  unfold memoryArg? at h
  split at h
  · next c rest hdrop =>
    have hc : c = '(' := by
      have := List.head?_dropWhile_not (· != '(') cs
      rw [hdrop] at this
      simpa using this
    subst hc
    have hcs : cs = cs.takeWhile (· != '(') ++ '(' :: rest := by
      rw [← hdrop, List.takeWhile_append_dropWhile]
    split at h
    · next name hrest =>
      split at h
      · next base hbase =>
        have hname : name.reverse = base.name.toList := by
          rw [← Register.eq_name_of_ofName? hbase, String.toList_ofList]
        have hrest' : rest = base.name.toList ++ [')'] := by
          rw [← hname, ← List.reverse_reverse rest, hrest, List.reverse_cons]
        rw [hrest'] at hcs
        split at h
        · next hnil =>
          cases h
          exact ⟨_, _, _, rfl, hcs, .inl hnil⟩
        · obtain ⟨d, hd, rfl⟩ := Option.map_eq_some_iff.1 h
          obtain ⟨i, hi, -⟩ := Option.bind_eq_some_iff.1 hd
          exact ⟨_, _, _, rfl, hcs, .inr ⟨i, hi⟩⟩
      · cases h
    · cases h
  · cases h

theorem tells_memory {o : String} {a : Arg} (h : memoryArg? o.toList = some a) : Tells o a := by
  obtain ⟨ds, d, b, rfl, ho, hds⟩ := text_of_memoryArg? h
  have hno : '%' ∉ ds ∧ '$' ∉ ds := by
    rcases hds with rfl | ⟨i, hi⟩
    · exact ⟨List.not_mem_nil, List.not_mem_nil⟩
    · exact ⟨(not_mem_of_int? hi).1, (not_mem_of_int? hi).2.2⟩
  have hhead : ∀ (c : Char) (cs : List Char), o.toList = c :: cs → c ≠ '%' ∧ c ≠ '$' := by
    intro c cs heq
    rw [ho] at heq
    cases ds with
    | nil =>
      rw [List.nil_append, List.cons.injEq] at heq
      rw [← heq.1]
      decide
    | cons e es =>
      rw [List.cons_append, List.cons.injEq] at heq
      rw [← heq.1]
      exact ⟨fun he => hno.1 (he ▸ List.mem_cons_self), fun he => hno.2 (he ▸ List.mem_cons_self)⟩
  refine ⟨?_, ?_, ?_, ?_⟩
  · rw [registers, ho, registersIn_append hno.1]
    show registersIn _ = [b.name]
    cases b <;> decide
  · rw [isRegister]
    split
    · next heq => exact absurd rfl (hhead _ _ heq).1
    · rfl
  · rw [isMemory, ho, List.any_append, List.any_cons]
    simp [Arg.isMemory]
  · rw [immediate?]
    split
    · next heq => exact absurd rfl (hhead _ _ heq).2
    · rfl

/-- **The text of an operand tells what it denotes.** -/
theorem arg?_tells {o : String} {a : Arg} (h : arg? o = some a) : Tells o a := by
  unfold arg? at h
  split at h
  · next ds ho =>
    obtain ⟨w, hw, rfl⟩ := Option.map_eq_some_iff.1 h
    exact tells_immediate ho hw
  · split at h
    · next r hr =>
      cases h
      rw [Register.eq_name_of_ofName? hr]
      exact tells_register r
    · exact tells_memory h

theorem arg?_eq_register {o : String} {r : Register} : arg? o = some (.register r) ↔ o = r.name := by
  refine ⟨fun h => ?_, fun h => h ▸ arg?_register r⟩
  unfold arg? at h
  split at h
  · obtain ⟨w, -, hw⟩ := Option.map_eq_some_iff.1 h
    cases hw
  · split at h
    · next hr =>
      cases h
      exact Register.eq_name_of_ofName? hr
    · obtain ⟨ds, d, b, hm, -⟩ := text_of_memoryArg? h
      cases hm

/-! ## Instructions -/

/-- What an instruction on data does once its operands are decoded. -/
def Instruction.act (i : Instruction) : Act Unit :=
  match decodeArgs i.opcode i.operands with
  | .ok args => Act.execute i.opcode args
  | .error e => throw e

section

variable {opcode : Opcode} {os : List String} {args : List Arg} {n : Nat} {a : Arg} {r : Register}

theorem getElem?_decodeArgs (h : decodeArgs opcode os = .ok args) (n : Nat) :
    args[n]? = os[n]?.bind arg? := by
  induction os generalizing args n with
  | nil =>
    cases h
    rfl
  | cons o os ih =>
    rw [decodeArgs] at h
    cases ho : arg? o with
    | none =>
      rw [ho] at h
      cases h
    | some a =>
      rw [ho] at h
      cases hd : decodeArgs opcode os with
      | error e =>
        rw [hd] at h
        cases h
      | ok as =>
        rw [hd] at h
        cases h
        cases n with
        | zero => exact ho.symm
        | succ n => exact ih hd n

variable {i : Instruction}

theorem getElem?_eq_arg? (h : decodeArgs i.opcode i.operands = .ok args) (n : Nat) :
    args[n]? = arg? (i.operand n) := by
  rw [getElem?_decodeArgs h, Instruction.operand, List.getD_eq_getElem?_getD]
  cases i.operands[n]? with
  | none => decide
  | some o => rfl

theorem tells_operand (h : decodeArgs i.opcode i.operands = .ok args) (ha : args[n]? = some a) :
    Tells (i.operand n) a := by
  rw [getElem?_eq_arg? h] at ha
  exact arg?_tells ha

theorem getElem?_eq_register (h : decodeArgs i.opcode i.operands = .ok args) :
    args[n]? = some (.register r) ↔ i.operand n = r.name := by
  rw [getElem?_eq_arg? h]
  exact arg?_eq_register

theorem mem_registers_operand (h : decodeArgs i.opcode i.operands = .ok args)
    (hr : r ∈ Act.operandReads args n) : r.name ∈ registers (i.operand n) := by
  unfold Act.operandReads at hr
  split at hr
  · next a ha =>
    rw [(tells_operand h ha).registers]
    exact List.mem_map_of_mem hr
  · cases hr

theorem mem_registers_address (h : decodeArgs i.opcode i.operands = .ok args)
    (hr : r ∈ Act.addressReads args n) :
    r.name ∈ if isMemory (i.operand n) then registers (i.operand n) else [] := by
  rw [if_pos]
  · exact mem_registers_operand h (Act.addressReads_subset hr)
  · unfold Act.addressReads at hr
    split at hr
    · next a ha =>
      rw [(tells_operand h ha).isMemory]
      split at hr
      · assumption
      · cases hr
    · cases hr

theorem Register.mem_names {rs : List Register} : r.name ∈ rs.map Register.name ↔ r ∈ rs := by
  refine ⟨fun h => ?_, List.mem_map_of_mem⟩
  obtain ⟨q, hq, hn⟩ := List.mem_map.1 h
  rw [← Register.name_injective hn]
  exact hq

/-- **The registers that are read are told.** -/
theorem Instruction.mem_reads (h : decodeArgs i.opcode i.operands = .ok args)
    (hr : r ∈ Act.dataReads i.opcode args) : r.name ∈ i.reads := by
  unfold Instruction.reads
  unfold Act.dataReads at hr
  cases ho : i.opcode <;> rw [ho] at hr <;> dsimp only at hr ⊢
  case pushq =>
    rw [List.mem_append] at hr ⊢
    refine hr.imp (mem_registers_operand h) fun hr => ?_
    rw [List.mem_singleton.1 hr]
    exact List.mem_cons_self
  case popq =>
    rw [List.mem_cons] at hr ⊢
    exact hr.imp (fun hr => congrArg Register.name hr) (mem_registers_address h)
  case movq =>
    rw [List.mem_append] at hr ⊢
    exact hr.imp (mem_registers_operand h) (mem_registers_address h)
  case idivq =>
    rw [List.mem_append] at hr ⊢
    refine hr.imp (mem_registers_operand h) fun hr => ?_
    exact Register.mem_names.2 hr
  case cqto =>
    rw [List.mem_singleton.1 hr]
    exact List.mem_cons_self
  case negq => exact mem_registers_operand h hr
  case addq | subq | imulq | cmpq | cmove | cmovne | cmovl | cmovle | cmovg | cmovge =>
    rw [List.mem_append] at hr ⊢
    exact hr.imp (mem_registers_operand h) (mem_registers_operand h)
  all_goals cases hr

/-- The destination of an instruction is told if it is a register. -/
theorem mem_destination (h : decodeArgs i.opcode i.operands = .ok args) :
    (r.name ∈ if isRegister (i.operand n) then [i.operand n] else []) ↔ args[n]? = some (.register r) := by
  rw [getElem?_eq_register h]
  split
  · rw [List.mem_singleton]
    exact eq_comm
  · next hn =>
    refine ⟨nofun, fun hr => absurd ?_ hn⟩
    rw [hr]
    exact (isRegisterName r).isRegister

/-- **The registers that are written are told.** -/
theorem Instruction.mem_writes (h : decodeArgs i.opcode i.operands = .ok args)
    (hd : i.opcode.transfersControl = false) : r.name ∈ i.writes ↔
      r ∈ Act.fixedWrites i.opcode ∨ Act.destination? i.opcode args = some (.register r) := by
  have hfixed : ∀ rs : List Register,
      r.name ∈ rs.map Register.name ↔ r ∈ rs ∨ (none : Option Arg) = some (.register r) := by
    intro rs
    rw [Register.mem_names, or_iff_left nofun]
  have hdest : ∀ n : Nat, (r.name ∈ if isRegister (i.operand n) then [i.operand n] else []) ↔
      r ∈ ([] : List Register) ∨ args[n]? = some (.register r) := by
    intro n
    rw [mem_destination h, or_iff_right List.not_mem_nil]
  unfold Instruction.writes Act.destination?
  cases ho : i.opcode <;> rw [ho] at hd <;> dsimp only [Act.fixedWrites]
  case pushq => exact hfixed [.rsp]
  case idivq => exact hfixed [.rax, .rdx]
  case cqto => exact hfixed [.rdx]
  case cmpq | nop => exact hfixed []
  case popq =>
    rw [List.mem_cons, List.mem_singleton, mem_destination h]
    exact or_congr_left ⟨fun hr => Register.name_injective hr, fun hr => congrArg Register.name hr⟩
  case negq => exact hdest 0
  case movq | addq | subq | imulq | cmove | cmovne | cmovl | cmovle | cmovg | cmovge => exact hdest 1
  all_goals cases hd

/-- **Registers that an instruction on data does not write keep their values.** -/
theorem Instruction.keeps (hd : i.opcode.transfersControl = false) (hr : r.name ∉ i.writes) :
    Act.Keeps (fun c => c.get r) i.act := by
  unfold Instruction.act
  split
  · next args h =>
    rw [mem_writes h hd, not_or] at hr
    have hignores : ∀ q, r ≠ q → Cpu.Ignores (fun c => c.get r) q :=
      fun q hq c w => c.get_set_of_ne hq w
    refine .execute _ _ (fun a ha w => .write _ (fun q hq => ?_) (fun _ _ _ => rfl) w)
      (fun q hq => hignores q fun h => hr.1 (h ▸ hq)) (fun _ _ _ => rfl) (fun _ _ _ => rfl)
    refine hignores q fun h => hr.2 ?_
    rw [ha, hq, h]
  · exact .throw _

/-- **What an instruction on data does depends on the registers it reads.** Afterwards the registers it
writes hold the same values as well. -/
theorem Instruction.parallel (hd : i.opcode.transfersControl = false) {S : Register → Prop}
    (hS : ∀ q, q.name ∈ i.reads → S q) :
    Act.Parallel S (fun q => S q ∨ q.name ∈ i.writes) i.act := by
  unfold Instruction.act
  split
  · next args h =>
    exact .execute _ _ (fun q hq => hS q (mem_reads h hq)) fun q hq => hq.imp_right (mem_writes h hd).1
  · exact .throw _

end

end MicroC
