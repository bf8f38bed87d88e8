import MicroC.Proofs.Machine.Stack

/-!
# Instructions on data

* `settled`: the result of an action that leaves the processor alone.
* `combine_of_ok`: arithmetic on a register.
* **`divide_of_extended`**: a division whose dividend is the extension of one word.
-/

namespace MicroC

open Convention

/-- The result of an action that leaves the processor alone. -/
def settled {α : Type} (c : Cpu) : Except MachineError α → EStateM.Result MachineError Cpu α
  | .ok a => .ok a c
  | .error e => .error e c

namespace Act

variable {c d : Cpu} {a : Arg} {r : Register} {w : Int64} {e : MachineError}

theorem read_memory (displacement : Int64) (base : Register) (c : Cpu) :
    read (.memory displacement base) c = load (c.get base + displacement).toUInt64.toNat c := rfl

theorem move_to_memory (r : Register) (displacement : Int64) (base : Register) (c : Cpu) :
    execute .movq [.register r, .memory displacement base] c =
      store (c.get base + displacement).toUInt64.toNat (c.get r) c := rfl

theorem combine_of_ok (opcode : Opcode) (f : Int64 → Int64 → Int64) (h : read a c = .ok w c) :
    combine opcode [a, .register r] f c = .ok () (c.set r (f (c.get r) w)) := by
  show (read a >>= _) c = _
  rw [bind_of_ok h]
  rfl

theorem combine_of_error (opcode : Opcode) (f : Int64 → Int64 → Int64) (h : read a c = .error e c) :
    combine opcode [a, .register r] f c = .error e c := by
  show (read a >>= _) c = _
  rw [bind_of_error h]

end Act

/-! ## Division -/

theorem toInt_signWord (w : Int64) : (signWord w).toInt = if w.toInt < 0 then -1 else 0 := by
  unfold signWord
  by_cases h : w.toInt < 0
  · rw [if_pos (Int64.lt_iff_toInt_lt.2 h), if_pos h]
    rfl
  · rw [if_neg (fun hc => h (Int64.lt_iff_toInt_lt.1 hc)), if_neg h]
    rfl

/-- The two halves of an extended word are its value. -/
theorem signWord_extends (w : Int64) :
    (signWord w).toInt * UInt64.size + w.toUInt64.toNat = w.toInt := by
  have hw : w.toInt = if 2 * w.toUInt64.toNat < UInt64.size then (w.toUInt64.toNat : Int)
      else w.toUInt64.toNat - UInt64.size := BitVec.toInt_eq_toNat_cond w.toBitVec
  have hlt : w.toUInt64.toNat < UInt64.size := w.toUInt64.toNat_lt
  rw [toInt_signWord]
  simp only [UInt64.size] at *
  by_cases h : 2 * w.toUInt64.toNat < 18446744073709551616
  · rw [if_pos h] at hw
    rw [if_neg (by omega)]
    omega
  · rw [if_neg h] at hw
    rw [if_pos (by omega)]
    omega

/-- A quotient of words is a word, but for one case. -/
theorem word?_tdiv (a b : Int64) :
    Decimal.word? (a.toInt.tdiv b.toInt) =
      if a = Int64.minValue ∧ b = -1 then none else some (a / b) := by
  have ha := a.minValue_le_toInt
  have ha' := a.toInt_le
  by_cases h : a = Int64.minValue ∧ b = -1
  · obtain ⟨rfl, rfl⟩ := h
    rfl
  · rw [if_neg h]
    have hq : (a / b).toInt = a.toInt.tdiv b.toInt := by
      by_cases hmin : a = Int64.minValue
      · exact Int64.toInt_div_of_ne_right _ _ (fun hb => h ⟨hmin, hb⟩)
      · exact Int64.toInt_div_of_ne_left _ _ hmin
    unfold Decimal.word?
    rw [← hq, if_pos ⟨(a / b).minValue_le_toInt, (a / b).toInt_le⟩, Int64.ofInt_toInt]

theorem ofInt_tmod (a b : Int64) : Int64.ofInt (a.toInt.tmod b.toInt) = a % b := by
  rw [← Int64.toInt_mod, Int64.ofInt_toInt]

/-- **A division whose dividend is the extension of one word.** -/
theorem Act.divide_of_extended {c : Cpu} (h : c.get .rdx = signWord (c.get .rax)) (b : Int64) :
    divide b c =
      if b = 0 then .error .divisionByZero c
      else if c.get .rax = Int64.minValue ∧ b = -1 then .error .divisionOverflow c
      else .ok () ((c.set .rax (c.get .rax / b)).set .rdx (c.get .rax % b)) := by
  unfold divide
  by_cases hb : b = 0
  · rw [if_pos hb, if_pos hb]
    rfl
  rw [if_neg hb, if_neg hb]
  dsimp only
  rw [bind_of_ok (show get .rdx c = .ok (c.get .rdx) c from rfl),
    bind_of_ok (show get .rax c = .ok (c.get .rax) c from rfl)]
  -- The dividend cannot be the least one of 128 bits.
  have htrap : ¬ (c.get .rdx = Int64.minValue ∧ c.get .rax = 0 ∧ b = -1) := by
    rintro ⟨hd, ha, -⟩
    rw [h, ha] at hd
    exact absurd hd (by decide)
  rw [if_neg htrap, h, signWord_extends, word?_tdiv]
  by_cases ho : c.get .rax = Int64.minValue ∧ b = -1
  · rw [if_pos ho, if_pos ho]
    rfl
  · rw [if_neg ho, if_neg ho]
    dsimp only
    rw [ofInt_tmod]
    rfl

end MicroC
