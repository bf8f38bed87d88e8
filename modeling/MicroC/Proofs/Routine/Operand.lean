import MicroC.Proofs.Routine.Layout

/-!
# Operands as they are written

Reading the text of an operand gives the operand back, as long as its numbers are words.

* `arg?_src`: the text of a source.
* `decodeArgs_op`: the operands of an operation on data.
-/

namespace MicroC

open Convention Decimal

theorem Register.eq_name_of_ofName? {t : String} {r : Register} (h : Register.ofName? t = some r) :
    t = r.name := by
  unfold Register.ofName? at h
  split at h <;> cases h <;> rfl

theorem word?_of_le {i : Int} (h : -2 ^ 63 ≤ i) (h' : i < 2 ^ 63) :
    Decimal.word? i = some (Int64.ofInt i) := by
  have hmin : Int64.minValue.toInt = -2 ^ 63 := rfl
  have hmax : Int64.maxValue.toInt = 2 ^ 63 - 1 := rfl
  rw [Decimal.word?, if_pos ⟨by omega, by omega⟩]

theorem arg?_immediate {i : Int} (h : -2 ^ 63 ≤ i) (h' : i < 2 ^ 63) :
    arg? (immediateOperand i) = some (.immediate (Int64.ofInt i)) := by
  have hlist : (immediateOperand i).toList = '$' :: intChars i := by
    simp [immediateOperand]
  rw [arg?, hlist]
  show ((int? (intChars i)).bind Decimal.word?).map Arg.immediate = _
  rw [int?_intChars, Option.bind_some, word?_of_le h h']
  rfl

theorem arg?_register (r : Register) : arg? r.name = some (.register r) := by
  cases r <;> decide

theorem mem_intChars {i : Int} {c : Char} (h : c ∈ intChars i) : c = '-' ∨ c.isDigit = true := by
  unfold intChars at h
  split at h
  · rcases List.mem_cons.1 h with rfl | h
    · exact .inl rfl
    · exact .inr (isDigit_of_mem_digits h)
  · exact .inr (isDigit_of_mem_digits h)

theorem intChars_ne_nil (i : Int) : intChars i ≠ [] := by
  unfold intChars
  split
  · simp
  · exact digits_ne_nil _

theorem toList_memoryOperand (i : Int) (base : String) :
    (memoryOperand i base).toList = intChars i ++ '(' :: (base.toList ++ [')']) := by
  simp [memoryOperand]

/-- A displacement is no other operand. -/
theorem arg?_memory {i : Int} {r : Register} (h : -2 ^ 63 ≤ i) (h' : i < 2 ^ 63) :
    arg? (memoryOperand i r.name) = some (.memory (Int64.ofInt i) r) := by
  obtain ⟨c, cs, hcs⟩ : ∃ c cs, intChars i = c :: cs := List.exists_cons_of_ne_nil (intChars_ne_nil i)
  have hc := mem_intChars (i := i) (c := c) (by rw [hcs]; exact List.mem_cons_self)
  have hparen : ∀ d ∈ intChars i, (d != '(') = true := by
    intro d hd
    rcases mem_intChars hd with rfl | hd
    · rfl
    · rw [bne_iff_ne]
      rintro rfl
      exact absurd hd (by decide)
  have hname : Register.ofName? (memoryOperand i r.name) = none := by
    cases hn : Register.ofName? (memoryOperand i r.name) with
    | none => rfl
    | some q =>
      have heq := congrArg String.toList (Register.eq_name_of_ofName? hn)
      rw [toList_memoryOperand, hcs, List.cons_append] at heq
      have hq : q.name.toList.head? = some '%' := by cases q <;> rfl
      rw [← heq, List.head?_cons, Option.some.injEq] at hq
      subst hq
      rcases hc with hc | hc <;> exact absurd hc (by decide)
  have hmemory : memoryArg? (intChars i ++ '(' :: (r.name.toList ++ [')'])) =
      some (.memory (Int64.ofInt i) r) := by
    rw [memoryArg?, List.dropWhile_append_of_pos hparen, List.takeWhile_append_of_pos hparen]
    rw [List.dropWhile_cons_of_neg (by decide), List.takeWhile_cons_of_neg (by decide), List.append_nil]
    simp only [List.reverse_append, List.reverse_cons, List.reverse_nil, List.nil_append,
      List.cons_append, List.reverse_reverse, String.ofList_toList, Register.ofName?_name]
    rw [hcs]
    dsimp only
    rw [← hcs, int?_intChars, Option.bind_some, word?_of_le h h']
    rfl
  rw [arg?]
  split
  · next ds hds =>
    rw [toList_memoryOperand, hcs, List.cons_append] at hds
    cases hds
    rcases hc with hc | hc <;> exact absurd hc (by decide)
  · next hds =>
    rw [hname]
    dsimp only
    rw [toList_memoryOperand]
    exact hmemory

/-! ## Sources and operations -/

/-- The numbers of a source are words. -/
def Src.InRange : Src → Prop
  | .imm _ | .reg _ => True
  | .slot n | .param n => n < 2 ^ 59

/-- The numbers of an operation are words. -/
def Op.InRange : Op → Prop
  | .push s _ | .move s _ | .combine _ s _ | .compare s _ => s.InRange
  | .store _ n | .shrink n => n < 2 ^ 59
  | _ => True

theorem arg?_src {s : Src} (h : s.InRange) : arg? s.text = some s.arg := by
  cases s with
  | imm w =>
    rw [Src.text, arg?_immediate (by exact w.le_toInt) (by exact w.toInt_lt), Int64.ofInt_toInt]
    rfl
  | reg r => exact arg?_register r.register
  | slot n =>
    simp only [Src.InRange] at h
    refine arg?_memory (r := .rbp) ?_ ?_
    · simp only [Src.slotOffset, wordSize]
      omega
    · simp only [Src.slotOffset, wordSize]
      omega
  | param n =>
    simp only [Src.InRange] at h
    refine arg?_memory (r := .rbp) ?_ ?_
    · simp only [Src.paramOffset, wordSize, calleeSaved, List.length_cons, List.length_nil]
      omega
    · simp only [Src.paramOffset, wordSize, calleeSaved, List.length_cons, List.length_nil]
      omega

theorem decodeArgs_cons {opcode : Opcode} {o : String} {a : Arg} (h : arg? o = some a)
    (os : List String) : decodeArgs opcode (o :: os) = (decodeArgs opcode os).map (a :: ·) := by
  rw [decodeArgs, h]

theorem arg?_reg (r : Reg) : arg? r.name = some (.register r.register) := arg?_register r.register

theorem decodeArgs_op {o : Op} (ho : o.isData = true) (h : o.InRange) (exitLabel : String)
    (opcode : Opcode) : decodeArgs opcode (o.operands exitLabel) = .ok o.args := by
  have hone : ∀ {t : String} {a : Arg}, arg? t = some a → decodeArgs opcode [t] = .ok [a] := by
    intro t a ha
    rw [decodeArgs_cons ha]
    rfl
  have htwo : ∀ {t u : String} {a b : Arg}, arg? t = some a → arg? u = some b →
      decodeArgs opcode [t, u] = .ok [a, b] := by
    intro t u a b ha hb
    rw [decodeArgs_cons ha, decodeArgs_cons hb]
    rfl
  cases o with
  | push s k => exact hone (arg?_src h)
  | pop r => exact hone (arg?_reg r)
  | move s r => exact htwo (arg?_src h) (arg?_reg r)
  | store r n => exact htwo (arg?_reg r) (arg?_src (s := .slot n) h)
  | peek r => exact htwo (by decide) (arg?_reg r)
  | combine f s r => exact htwo (arg?_src h) (arg?_reg r)
  | negate r => exact hone (arg?_reg r)
  | extend => rfl
  | divide r => exact hone (arg?_reg r)
  | compare s r => exact htwo (arg?_src h) (arg?_reg r)
  | select f s r => exact htwo (arg?_reg s) (arg?_reg r)
  | grow => exact htwo (arg?_immediate (by decide) (by decide)) (by decide)
  | shrink n =>
    simp only [Op.InRange] at h
    refine htwo (arg?_immediate ?_ ?_) (by decide)
    · simp only [wordSize]
      omega
    · simp only [wordSize]
      omega
  | nop => rfl
  | jump j l => cases ho
  | exit => cases ho
  | call f => cases ho

end MicroC
