import MicroC.Proofs.Routine.Operand
import MicroC.Proofs.Routine.Spelling

/-!
# Reading and writing, as it is written

The reductions go by the text of operands. For operations of a routine the text tells what they read and
write.

* `Src.registers_text`, `Src.isMemory_text`, `Src.immediate?_text`: what the text of a source tells.
* `Op.reads`, `Op.writes`: the data registers that an operation reads and writes.
* **`Instruction.Spells.mem_reads`**, `mem_writes`: an instruction tells those of its operation.
-/

namespace MicroC

open Convention Operand Decimal

/-! ## Texts of sources -/

theorem registersIn_append {cs : List Char} (h : '%' ∉ cs) (ds : List Char) :
    registersIn (cs ++ ds) = registersIn ds := by
  induction cs with
  | nil => rfl
  | cons c cs ih =>
    rw [List.mem_cons, not_or] at h
    rw [List.cons_append, registersIn, if_neg (fun hc => h.1 hc.symm), ih h.2]

theorem not_mem_intChars {c : Char} (h : c ≠ '-') (h' : c.isDigit = false) (i : Int) :
    c ∉ intChars i := by
  intro hc
  rcases mem_intChars hc with rfl | hd
  · exact h rfl
  · rw [h'] at hd
    cases hd

theorem intChars_cons (i : Int) : ∃ c cs, intChars i = c :: cs ∧ c ≠ '%' ∧ c ≠ '$' ∧ c ≠ '(' := by
  obtain ⟨c, cs, hcs⟩ := List.exists_cons_of_ne_nil (intChars_ne_nil i)
  have hc : c ∈ intChars i := by
    rw [hcs]
    exact List.mem_cons_self
  refine ⟨c, cs, hcs, ?_, ?_, ?_⟩
  all_goals
    rintro rfl
    exact not_mem_intChars (by decide) (by decide) i hc

/-- What the name of a register tells. -/
structure IsRegisterName (n : String) : Prop where
  registers : registers n = [n]
  isRegister : isRegister n = true
  isMemory : isMemory n = false
  immediate : immediate? n = none

theorem isRegisterName (r : Register) : IsRegisterName r.name := by
  cases r <;> exact ⟨by decide, by decide, by decide, by decide⟩

theorem Reg.registers_name (r : Reg) : registers r.name = [r.name] := (isRegisterName r.register).registers

theorem Reg.isRegister_name (r : Reg) : isRegister r.name = true := (isRegisterName r.register).isRegister

theorem Reg.isMemory_name (r : Reg) : isMemory r.name = false := (isRegisterName r.register).isMemory

theorem Reg.immediate?_name (r : Reg) : immediate? r.name = none := (isRegisterName r.register).immediate

theorem Reg.name_ne_stackPointer (r : Reg) : r.name ≠ stackPointer :=
  fun h => r.ne_rsp (Register.name_injective (s := .rsp) h)

theorem Reg.name_ne_framePointer (r : Reg) : r.name ≠ framePointer :=
  fun h => r.ne_rbp (Register.name_injective (s := .rbp) h)

section Memory

variable (i : Int)

theorem registers_memoryOperand : registers (memoryOperand i framePointer) = [framePointer] := by
  rw [registers, toList_memoryOperand, registersIn_append (not_mem_intChars (by decide) (by decide) i)]
  decide

theorem isRegister_memoryOperand : isRegister (memoryOperand i framePointer) = false := by
  obtain ⟨c, cs, hcs, hc, -⟩ := intChars_cons i
  rw [isRegister, toList_memoryOperand, hcs, List.cons_append]
  split
  · next heq =>
    cases heq
    exact absurd rfl hc
  · rfl

theorem isMemory_memoryOperand : isMemory (memoryOperand i framePointer) = true := by
  rw [isMemory, toList_memoryOperand]
  simp

theorem immediate?_memoryOperand : immediate? (memoryOperand i framePointer) = none := by
  obtain ⟨c, cs, hcs, -, hc, -⟩ := intChars_cons i
  rw [immediate?, toList_memoryOperand, hcs, List.cons_append]
  split
  · next heq =>
    cases heq
    exact absurd rfl hc
  · rfl

theorem toList_immediateOperand : (immediateOperand i).toList = '$' :: intChars i := by
  simp [immediateOperand]

theorem registers_immediateOperand : registers (immediateOperand i) = [] := by
  have hno : '%' ∉ '$' :: intChars i := by
    rw [List.mem_cons, not_or]
    exact ⟨by decide, not_mem_intChars (by decide) (by decide) i⟩
  rw [registers, toList_immediateOperand, ← List.append_nil ('$' :: intChars i), registersIn_append hno]
  rfl

theorem isRegister_immediateOperand : isRegister (immediateOperand i) = false := by
  rw [isRegister, toList_immediateOperand]
  rfl

theorem isMemory_immediateOperand : isMemory (immediateOperand i) = false := by
  have hno : '(' ∉ '$' :: intChars i := by
    rw [List.mem_cons, not_or]
    exact ⟨by decide, not_mem_intChars (by decide) (by decide) i⟩
  rw [isMemory, toList_immediateOperand, List.any_eq_false]
  intro c hc
  rw [beq_iff_eq]
  rintro rfl
  exact hno hc

end Memory

namespace Src

/-- The data register that a source reads. -/
def reads : Src → List Reg
  | .reg r => [r]
  | _ => []

/-- Whether a source is in memory. -/
def inMemory : Src → Bool
  | .slot _ | .param _ => true
  | _ => false

/-- The value of a constant. -/
def constant? : Src → Option Int64
  | .imm w => some w
  | _ => none

theorem registers_text (s : Src) :
    registers s.text = s.reads.map Reg.name ++ if s.inMemory then [framePointer] else [] := by
  cases s with
  | imm w => exact registers_immediateOperand _
  | reg r => exact r.registers_name
  | slot n => exact registers_memoryOperand _
  | param n => exact registers_memoryOperand _

theorem isMemory_text (s : Src) : isMemory s.text = s.inMemory := by
  cases s with
  | imm w => exact isMemory_immediateOperand _
  | reg r => exact r.isMemory_name
  | slot n => exact isMemory_memoryOperand _
  | param n => exact isMemory_memoryOperand _

theorem immediate?_text (s : Src) : immediate? s.text = s.constant? := by
  cases s with
  | imm w =>
    have hw : Decimal.word? w.toInt = some w := by
      rw [word?_of_le w.le_toInt w.toInt_lt, Int64.ofInt_toInt]
    rw [text, immediate?, toList_immediateOperand]
    show (int? (intChars w.toInt)).bind Decimal.word? = some w
    rw [int?_intChars, Option.bind_some, hw]
  | reg r => exact r.immediate?_name
  | slot n => exact immediate?_memoryOperand _
  | param n => exact immediate?_memoryOperand _

theorem mem_registers_text (s : Src) (q : Reg) : q.name ∈ registers s.text ↔ q ∈ s.reads := by
  rw [registers_text, List.mem_append]
  constructor
  · rintro (h | h)
    · obtain ⟨r, hr, heq⟩ := List.mem_map.1 h
      exact Reg.name_injective heq ▸ hr
    · split at h
      · exact absurd (List.mem_singleton.1 h) q.name_ne_framePointer
      · cases h
  · exact fun h => .inl (List.mem_map_of_mem h)

/-- Only a register is written like one. -/
theorem text_eq_name {s : Src} {r : Reg} (h : s.text = r.name) : s = .reg r := by
  cases s with
  | imm w =>
    have := isRegister_immediateOperand w.toInt
    rw [show immediateOperand w.toInt = r.name from h, r.isRegister_name] at this
    cases this
  | reg q => exact congrArg Src.reg (Reg.name_injective h)
  | slot n =>
    have := isRegister_memoryOperand (slotOffset n)
    rw [show memoryOperand (slotOffset n) framePointer = r.name from h, r.isRegister_name] at this
    cases this
  | param n =>
    have := isRegister_memoryOperand (paramOffset n)
    rw [show memoryOperand (paramOffset n) framePointer = r.name from h, r.isRegister_name] at this
    cases this

end Src

/-! ## Operations -/

namespace Op

/-- The data registers that an operation on data reads. -/
def reads : Op → List Reg
  | .push s _ | .move s _ => s.reads
  | .store r _ | .negate r => [r]
  | .combine _ s r | .compare s r => s.reads ++ [r]
  | .extend => [.rax]
  | .divide r => [r, .rax, .rdx]
  | .select _ s r => [s, r]
  | _ => []

/-- The data registers that an operation on data writes. -/
def writes : Op → List Reg
  | .pop r | .move _ r | .peek r | .combine _ _ r | .negate r | .select _ _ r => [r]
  | .extend => [.rdx]
  | .divide _ => [.rax, .rdx]
  | _ => []

end Op

variable {exit : String} {i : Instruction} {o : Op} {q : Reg}

theorem Instruction.Spells.operand (h : i.Spells exit o) (n : Nat) :
    i.operand n = (o.operands exit).getD n "" := by
  rw [Instruction.operand, h.operands]

theorem mem_name {r : Reg} : q.name ∈ [r.name] ↔ q ∈ [r] := by
  rw [List.mem_singleton, List.mem_singleton]
  exact ⟨Reg.name_injective, congrArg _⟩

theorem registers_stackPointer : registers stackPointer = [stackPointer] := by decide

theorem registers_top : registers "(%rsp)" = [stackPointer] := by decide

theorem isMemory_top : isMemory "(%rsp)" = true := by decide

theorem not_mem_stackPointer : q.name ∉ [stackPointer] := by
  rw [List.mem_singleton]
  exact q.name_ne_stackPointer

theorem Instruction.Spells.mem_reads (h : i.Spells exit o) (ho : o.isData = true) :
    q.name ∈ i.reads ↔ q ∈ o.reads := by
  have h0 := h.operand 0
  have h1 := h.operand 1
  have hrax : ("%rax" : String) = Reg.rax.name := rfl
  have hrdx : ("%rdx" : String) = Reg.rdx.name := rfl
  unfold Instruction.reads
  rw [h.opcode, h0, h1]
  cases o with
  | push s k =>
    simp [Op.opcode, Op.operands, Op.reads, s.mem_registers_text, q.name_ne_stackPointer]
  | pop r =>
    simp [Op.opcode, Op.operands, Op.reads, r.isMemory_name, q.name_ne_stackPointer]
  | move s r =>
    simp [Op.opcode, Op.operands, Op.reads, s.mem_registers_text, r.isMemory_name]
  | store r n =>
    show q.name ∈ registers r.name ++ (if isMemory (Src.slot n).text then registers (Src.slot n).text else [])
      ↔ q ∈ [r]
    rw [r.registers_name, Src.isMemory_text, Src.inMemory, if_pos rfl, List.mem_append,
      Src.mem_registers_text, mem_name]
    exact ⟨fun h => h.resolve_right (by rintro ⟨⟩), .inl⟩
  | peek r =>
    simp [Op.opcode, Op.operands, Op.reads, registers_top, r.isMemory_name, q.name_ne_stackPointer]
  | combine f s r =>
    have hmem : q.name ∈ registers s.text ++ registers r.name ↔ q ∈ s.reads ++ [r] := by
      rw [List.mem_append, List.mem_append, s.mem_registers_text, r.registers_name, mem_name]
    cases f <;> exact hmem
  | negate r =>
    show q.name ∈ registers r.name ↔ q ∈ [r]
    rw [r.registers_name, mem_name]
  | extend =>
    show q.name ∈ [Reg.rax.name] ↔ q ∈ [.rax]
    exact mem_name
  | divide r =>
    show q.name ∈ registers r.name ++ ["%rax", "%rdx"] ↔ q ∈ [r, .rax, .rdx]
    rw [r.registers_name, List.singleton_append, hrax, hrdx]
    simp only [List.mem_cons, List.not_mem_nil, or_false]
    exact or_congr ⟨Reg.name_injective, congrArg _⟩
      (or_congr ⟨Reg.name_injective, congrArg _⟩ ⟨Reg.name_injective, congrArg _⟩)
  | compare s r =>
    show q.name ∈ registers s.text ++ registers r.name ↔ q ∈ s.reads ++ [r]
    rw [List.mem_append, List.mem_append, s.mem_registers_text, r.registers_name, mem_name]
  | select c s r =>
    have hmem : q.name ∈ registers s.name ++ registers r.name ↔ q ∈ [s, r] := by
      rw [s.registers_name, r.registers_name, List.singleton_append]
      simp only [List.mem_cons, List.not_mem_nil, or_false]
      exact or_congr ⟨Reg.name_injective, congrArg _⟩ ⟨Reg.name_injective, congrArg _⟩
    cases c <;> exact hmem
  | grow =>
    show q.name ∈ registers (immediateOperand wordSize) ++ registers stackPointer ↔ q ∈ []
    rw [registers_immediateOperand, registers_stackPointer]
    simpa using not_mem_stackPointer
  | shrink n =>
    show q.name ∈ registers (immediateOperand ((n + 1) * wordSize : Nat)) ++ registers stackPointer ↔ q ∈ []
    rw [registers_immediateOperand, registers_stackPointer]
    simpa using not_mem_stackPointer
  | nop =>
    show q.name ∈ [] ↔ q ∈ []
    constructor <;> rintro ⟨⟩
  | jump j l => cases ho
  | exit => cases ho
  | call f => cases ho

theorem Instruction.Spells.mem_writes (h : i.Spells exit o) (ho : o.isData = true) :
    q.name ∈ i.writes ↔ q ∈ o.writes := by
  have h0 := h.operand 0
  have h1 := h.operand 1
  have hslot : ∀ n, isRegister (Src.slot n).text = false := fun n => isRegister_memoryOperand _
  have hto : ∀ r : Reg, q.name ∈ (if isRegister r.name then [r.name] else []) ↔ q ∈ [r] := by
    intro r
    rw [r.isRegister_name, if_pos rfl]
    exact mem_name
  have hstack : q.name ∈ (if isRegister stackPointer then [stackPointer] else []) ↔ q ∈ [] := by
    rw [if_pos (by decide)]
    simpa using not_mem_stackPointer
  unfold Instruction.writes
  rw [h.opcode, h0, h1]
  cases o with
  | push s k =>
    show q.name ∈ [stackPointer] ↔ q ∈ []
    simpa using not_mem_stackPointer
  | pop r =>
    show q.name ∈ stackPointer :: (if isRegister r.name then [r.name] else []) ↔ q ∈ [r]
    rw [List.mem_cons, hto]
    exact ⟨fun h => h.resolve_left q.name_ne_stackPointer, .inr⟩
  | move s r => exact hto r
  | store r n =>
    show q.name ∈ (if isRegister (Src.slot n).text then [(Src.slot n).text] else []) ↔ q ∈ []
    rw [hslot]
    constructor <;> rintro ⟨⟩
  | peek r => exact hto r
  | combine f s r => cases f <;> exact hto r
  | negate r => exact hto r
  | extend =>
    show q.name ∈ [Reg.rdx.name] ↔ q ∈ [.rdx]
    exact mem_name
  | divide r =>
    show q.name ∈ [Reg.rax.name, Reg.rdx.name] ↔ q ∈ [.rax, .rdx]
    simp only [List.mem_cons, List.not_mem_nil, or_false]
    exact or_congr ⟨Reg.name_injective, congrArg _⟩ ⟨Reg.name_injective, congrArg _⟩
  | compare s r =>
    show q.name ∈ [] ↔ q ∈ []
    constructor <;> rintro ⟨⟩
  | select c s r => cases c <;> exact hto r
  | grow => exact hstack
  | shrink n => exact hstack
  | nop =>
    show q.name ∈ [] ↔ q ∈ []
    constructor <;> rintro ⟨⟩
  | jump j l => cases ho
  | exit => cases ho
  | call f => cases ho

end MicroC
