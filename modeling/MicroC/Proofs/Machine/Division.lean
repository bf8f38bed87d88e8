import MicroC.Emission.Expr
import MicroC.Proofs.Machine.Straight

/-!
# Division

A division takes a dividend of 128 bits from two registers and divides it toward zero. It fails where the
quotient does not fit into a word, but for the least dividend by minus one: that quotient does not even have
128 bits, and the machine itself stops.

* `Cpu.dividend`: the two registers as one number.
* `Cpu.Divided`: what a division leaves.
* `Act.divide_eq`: a division in terms of its quotient.
* **`division_exact`**: what division does for all values of the registers, behind a sign extension, and in
  the code of `/` and `%`.
* `divide_least_traps`: the one division that stops the machine.
-/

namespace MicroC

open Convention

/-! ## Quotients and remainders -/

/-- A number is the value of a word. -/
def IsWord (i : Int) : Prop := Int64.minValue.toInt ≤ i ∧ i ≤ Int64.maxValue.toInt

instance (i : Int) : Decidable (IsWord i) := by
  unfold IsWord
  infer_instance

theorem isWord_toInt (w : Int64) : IsWord w.toInt := ⟨w.minValue_le_toInt, w.toInt_le⟩

theorem IsWord.toInt_ofInt {i : Int} (h : IsWord i) : (Int64.ofInt i).toInt = i :=
  Int64.toInt_ofInt_of_le h.1 (Int.lt_add_one_of_le h.2)

theorem word?_eq_ite (i : Int) : Decimal.word? i = if IsWord i then some (Int64.ofInt i) else none := rfl

/-- The remainder of a division toward zero: it is closer to zero than the divisor, and on the side of the
dividend. -/
structure Leftover (dividend divisor r : Int) : Prop where
  small : r.natAbs < divisor.natAbs
  sign : r = 0 ∨ r.sign = dividend.sign

theorem leftover_tmod (dividend : Int) {divisor : Int} (h : divisor ≠ 0) :
    Leftover dividend divisor (dividend.tmod divisor) where
  small := by
    rw [Int.natAbs_tmod]
    exact Nat.mod_lt _ (Int.natAbs_pos.2 h)
  sign := by
    have hmod := Int.sign_tmod dividend divisor
    split at hmod
    · exact .inl (Int.sign_eq_zero_iff_zero.1 hmod)
    · exact .inr hmod

theorem Leftover.isWord {dividend r : Int} {w : Int64} (h : Leftover dividend w.toInt r) : IsWord r := by
  have hsmall := h.small
  obtain ⟨hlo, hhi⟩ := isWord_toInt w
  rw [show Int64.minValue.toInt = -9223372036854775808 from rfl] at hlo
  rw [show Int64.maxValue.toInt = 9223372036854775807 from rfl] at hhi
  show -9223372036854775808 ≤ r ∧ r ≤ 9223372036854775807
  omega

/-! ## Dividends -/

/-- The 128-bit value of `%rdx` and `%rax`. -/
def Cpu.dividend (c : Cpu) : Int := (c.get .rdx).toInt * UInt64.size + (c.get .rax).toUInt64.toNat

/-- The least value of 128 bits. -/
def leastDividend : Int := Int64.minValue.toInt * UInt64.size

/-- Only one pair of registers has the least value. -/
theorem Cpu.dividend_eq_least {c : Cpu} :
    c.dividend = leastDividend ↔ c.get .rdx = Int64.minValue ∧ c.get .rax = 0 := by
  have hhigh := (c.get .rdx).minValue_le_toInt
  constructor
  · intro h
    have hlow : (0 : Int) ≤ (c.get .rax).toUInt64.toNat := Int.natCast_nonneg _
    simp only [dividend, leastDividend, UInt64.size] at h
    have hrdx : (c.get .rdx).toInt = Int64.minValue.toInt := by omega
    have hrax : (c.get .rax).toUInt64.toNat = 0 := by omega
    refine ⟨Int64.toInt_inj.1 hrdx, ?_⟩
    have hzero : (c.get .rax).toUInt64 = 0 := UInt64.toNat_inj.1 hrax
    rw [← Int64.toInt64_toUInt64 (c.get .rax), hzero]
    rfl
  · rintro ⟨hrdx, hrax⟩
    rw [dividend, hrdx, hrax]
    decide

theorem Cpu.dividend_of_extended {c : Cpu} (h : c.get .rdx = signWord (c.get .rax)) :
    c.dividend = (c.get .rax).toInt := by
  rw [dividend, h, signWord_extends]

/-- What a division leaves: the quotient and the remainder in two registers, and all else as it was. -/
structure Cpu.Divided (c : Cpu) (divisor : Int64) (d : Cpu) : Prop where
  quotient : (d.get .rax).toInt = c.dividend.tdiv divisor.toInt
  remainder : (d.get .rdx).toInt = c.dividend - (d.get .rax).toInt * divisor.toInt
  leftover : Leftover c.dividend divisor.toInt (d.get .rdx).toInt
  others : ∀ r, r ≠ .rax → r ≠ .rdx → d.get r = c.get r
  stack : d.stack = c.stack
  flags : d.flags = c.flags
  returns : d.returns = c.returns

theorem Cpu.Divided.eq {c d : Cpu} {divisor : Int64} (h : c.Divided divisor d) :
    c.dividend = (d.get .rax).toInt * divisor.toInt + (d.get .rdx).toInt := by
  rw [h.remainder]
  omega

theorem toInt_ne_zero {w : Int64} (h : w ≠ 0) : w.toInt ≠ 0 := fun hw => h (Int64.toInt_inj.1 hw)

namespace Act

variable {c d : Cpu} {a : Arg} {args : List Arg} {divisor : Int64}

/-- **A division in terms of its quotient.** -/
theorem divide_eq (c : Cpu) (hd : divisor ≠ 0) :
    divide divisor c =
      if c.dividend = leastDividend ∧ divisor = -1 then .error .divisionTrap c
      else if IsWord (c.dividend.tdiv divisor.toInt) then
        .ok () ((c.set .rax (Int64.ofInt (c.dividend.tdiv divisor.toInt))).set .rdx
          (Int64.ofInt (c.dividend.tmod divisor.toInt)))
      else .error .divisionOverflow c := by
  unfold divide
  rw [if_neg hd]
  dsimp only
  rw [bind_of_ok (show get .rdx c = .ok (c.get .rdx) c from rfl),
    bind_of_ok (show get .rax c = .ok (c.get .rax) c from rfl)]
  by_cases htrap : c.get .rdx = Int64.minValue ∧ c.get .rax = 0 ∧ divisor = -1
  · rw [if_pos htrap, if_pos ⟨Cpu.dividend_eq_least.2 ⟨htrap.1, htrap.2.1⟩, htrap.2.2⟩]
    rfl
  · rw [if_neg htrap, if_neg fun h => htrap
      ⟨(Cpu.dividend_eq_least.1 h.1).1, (Cpu.dividend_eq_least.1 h.1).2, h.2⟩]
    rw [show (c.get .rdx).toInt * UInt64.size + (c.get .rax).toUInt64.toNat = c.dividend from rfl, word?_eq_ite]
    split <;> rfl

theorem divide_of_isWord (hd : divisor ≠ 0) (hq : IsWord (c.dividend.tdiv divisor.toInt)) :
    ∃ e, divide divisor c = .ok () e ∧ c.Divided divisor e := by
  have hleast : ¬ (c.dividend = leastDividend ∧ divisor = -1) := by
    rintro ⟨h, rfl⟩
    rw [h] at hq
    exact absurd hq (by decide)
  have hleft := leftover_tmod c.dividend (toInt_ne_zero hd)
  rw [divide_eq c hd, if_neg hleast, if_pos hq]
  refine ⟨_, rfl, ?_⟩
  have hrax : (((c.set .rax (Int64.ofInt (c.dividend.tdiv divisor.toInt))).set .rdx
      (Int64.ofInt (c.dividend.tmod divisor.toInt))).get .rax).toInt = c.dividend.tdiv divisor.toInt := by
    rw [Cpu.get_set_of_ne _ (by decide), Cpu.get_set_self, hq.toInt_ofInt]
  have hrdx : (((c.set .rax (Int64.ofInt (c.dividend.tdiv divisor.toInt))).set .rdx
      (Int64.ofInt (c.dividend.tmod divisor.toInt))).get .rdx).toInt = c.dividend.tmod divisor.toInt := by
    rw [Cpu.get_set_self, hleft.isWord.toInt_ofInt]
  exact
    { quotient := hrax
      remainder := by
        rw [hrax, hrdx, Int.tmod_def, Int.mul_comm]
      leftover := hrdx.symm ▸ hleft
      others := fun r hq hm => (Cpu.get_set_of_ne _ hm _).trans (c.get_set_of_ne hq _)
      stack := rfl
      flags := rfl
      returns := rfl }

theorem cqto_eq (c : Cpu) : execute .cqto [] c = .ok () (c.set .rdx (signWord (c.get .rax))) := rfl

theorem idivq_eq (ha : args[0]? = some a) (hr : read a c = .ok divisor c) :
    execute .idivq args c = divide divisor c := by
  show (operand .idivq args 0 >>= fun a => read a >>= divide) c = _
  rw [operand_bind, ha]
  exact bind_of_ok hr divide

theorem divide_of_signWord (h : c.get .rdx = signWord (c.get .rax)) (hd : divisor ≠ 0)
    (hfits : ¬ (c.get .rax = Int64.minValue ∧ divisor = -1)) :
    ∃ e, divide divisor c = .ok () e ∧ c.Divided divisor e := by
  refine divide_of_isWord hd ?_
  have hword := word?_tdiv (c.get .rax) divisor
  rw [if_neg hfits, ← Cpu.dividend_of_extended h, word?_eq_ite] at hword
  by_contra hq
  rw [if_neg hq] at hword
  cases hword

end Act

/-! ## The code of divisions -/

section Emitted

variable {c d : Cpu} {w : Int64} {r : Register} {ws : List (Option Int64)}

theorem Instruction.act_of_registers {i : Instruction} (rs : List Register)
    (h : i.operands = rs.map Register.name) : i.act = Act.execute i.opcode (rs.map .register) := by
  have hargs : ∀ rs : List Register, decodeArgs i.opcode (rs.map Register.name) = .ok (rs.map .register) := by
    intro rs
    induction rs with
    | nil => rfl
    | cons r rs ih =>
      rw [List.map_cons, decodeArgs, arg?_register, ih]
      rfl
  rw [Instruction.act, h, hargs]

theorem Act.popq_of_holds (h : c.Holds (some w :: ws)) (hr : r ≠ .rsp) :
    ∃ d, execute .popq [.register r] c = .ok () d ∧ d.Holds ws ∧ d.get r = w ∧
      ∀ q, q ≠ r → q ≠ .rsp → d.get q = c.get q := by
  obtain ⟨d, hd, hholds, halike⟩ := pop_of_holds h
  refine ⟨d.set r w, bind_of_ok hd _, hholds.set hr w, d.get_set_self r w, fun q hq hrsp => ?_⟩
  rw [d.get_set_of_ne hq, halike.reg q hrsp]

/-- The instructions of a division. -/
def divisionCode (result : String) (op : BinaryOp) : List Instruction :=
  [.commented .popq ["%r13"] "Pop divisor", .commented .popq [returnRegister] "Pop dividend",
    .commented .cqto [] "Sign-extend dividend into %rdx", .commented .idivq ["%r13"] s!"Compute '{op.text}'",
    .commented .pushq [result] "Push result"]

theorem division_lines {result : String} {op : BinaryOp} {l : Layout} {out : Emitted Unit}
    (h : Emit.division result op l = .ok out) : out.lines = (divisionCode result op).map .code := by
  cases h
  rfl

/-- **The code of a division** takes the divisor and the dividend off the stack and puts a register on it. -/
theorem inOrder_divisionCode (r : Register) (op : BinaryOp) {a b : Int64}
    (h : c.Holds (some b :: some a :: ws)) (hb : b ≠ 0) (hfits : ¬ (a = Int64.minValue ∧ b = -1)) :
    ∃ d e f, d.dividend = a.toInt ∧ Cpu.Divided d b e ∧
      Act.inOrder (divisionCode r.name op) c = .ok () f ∧ f.Holds (some (e.get r) :: ws) := by
  obtain ⟨c₁, h₁, hholds₁, hr13, -⟩ := Act.popq_of_holds (r := .r13) h (by decide)
  obtain ⟨c₂, h₂, hholds₂, hrax, hothers⟩ := Act.popq_of_holds (r := .rax) hholds₁ (by decide)
  have hextended : (c₂.set .rdx (signWord (c₂.get .rax))).get .rdx =
      signWord ((c₂.set .rdx (signWord (c₂.get .rax))).get .rax) := by
    rw [c₂.get_set_self, c₂.get_set_of_ne (by decide)]
  have hdividend := Cpu.dividend_of_extended hextended
  have hbehind : ∀ q, q ≠ .rdx → (c₂.set .rdx (signWord (c₂.get .rax))).get q = c₂.get q :=
    fun q hq => c₂.get_set_of_ne hq _
  obtain ⟨e, he, hdivided⟩ := Act.divide_of_signWord hextended hb (by rwa [hbehind _ (by decide), hrax])
  have hdivisor : Act.read (.register .r13) (c₂.set .rdx (signWord (c₂.get .rax))) =
      .ok b (c₂.set .rdx (signWord (c₂.get .rax))) := by
    show EStateM.Result.ok _ _ = _
    rw [hbehind _ (by decide), hothers _ (by decide) (by decide), hr13]
  have hholds₃ : e.Holds ws := by
    refine ⟨?_, fun i w hi => ?_⟩
    · rw [hdivided.others _ (by decide) (by decide), hbehind _ (by decide), hholds₂.rsp]
    · obtain ⟨hlt, hw⟩ := hholds₂.word i w hi
      exact ⟨hlt, by rw [hdivided.stack]; exact hw⟩
  have hroom : ws.length < stackWords := by
    obtain ⟨hlt, -⟩ := hholds₁.word ws.length a (by rw [under_cons, if_pos rfl])
    exact hlt
  obtain ⟨f, hf, hholds₄, -⟩ := Act.push_of_lt hholds₃ hroom (e.get r)
  refine ⟨_, e, f, hdividend.trans (by rw [hbehind _ (by decide), hrax]), hdivided, ?_, hholds₄⟩
  refine Act.inOrder_cons.2 ⟨c₁, ?_, Act.inOrder_cons.2 ⟨c₂, ?_, Act.inOrder_cons.2 ⟨_, rfl, ?_⟩⟩⟩
  · rw [Instruction.act_of_registers [.r13] rfl]
    exact h₁
  · rw [Instruction.act_of_registers [.rax] rfl]
    exact h₂
  refine Act.inOrder_cons.2 ⟨e, ?_, Act.inOrder_cons.2 ⟨f, ?_, rfl⟩⟩
  · rw [Instruction.act_of_registers [.r13] rfl]
    exact (Act.idivq_eq rfl hdivisor).trans he
  · rw [Instruction.act_of_registers [r] rfl]
    exact hf

end Emitted

/-! ## What division does -/

/-- **Division is exact.** For all values of `%rdx` and `%rax` and every divisor but zero: a quotient that is a
word goes to `%rax` and the remainder to `%rdx`, any other is an overflow that changes nothing, and only for
the least dividend by minus one the machine stops. Behind a sign extension only the least word by minus one
overflows, and for all other words the code of `/` and `%` leaves numbers that make up the dividend. -/
theorem division_exact {args : List Arg} {o : Arg} {c : Cpu} {divisor : Int64} (hargs : args[0]? = some o)
    (hread : Act.read o c = .ok divisor c) (hdivisor : divisor ≠ 0) :
    (Act.execute .idivq args c = .error .divisionTrap c ↔ c.dividend = leastDividend ∧ divisor = -1) ∧
    (Act.execute .idivq args c = .error .divisionOverflow c ↔
      ¬ IsWord (c.dividend.tdiv divisor.toInt) ∧ ¬ (c.dividend = leastDividend ∧ divisor = -1)) ∧
    (IsWord (c.dividend.tdiv divisor.toInt) → ∃ d, Act.execute .idivq args c = .ok () d ∧ c.Divided divisor d) ∧
    (∀ b, Act.execute .cqto [] b = .ok () c → c.dividend = (b.get .rax).toInt ∧
      (Act.execute .idivq args c = .error .divisionOverflow c ↔ b.get .rax = Int64.minValue ∧ divisor = -1) ∧
      (¬ (b.get .rax = Int64.minValue ∧ divisor = -1) →
        ∃ d, Act.execute .idivq args c = .ok () d ∧ c.Divided divisor d)) ∧
    ∀ l l' quot rem, Emit.operator .div l = .ok quot → Emit.operator .mod l' = .ok rem →
      ∃ is js, quot.lines = is.map .code ∧ rem.lines = js.map .code ∧
        ∀ (c : Cpu) (a b : Int64) (ws : List (Option Int64)), c.Holds (some b :: some a :: ws) → b ≠ 0 →
          ¬ (a = Int64.minValue ∧ b = -1) → ∃ q r d e,
            Act.inOrder is c = .ok () d ∧ d.Holds (some q :: ws) ∧ Act.inOrder js c = .ok () e ∧
              e.Holds (some r :: ws) ∧ q.toInt = a.toInt.tdiv b.toInt ∧ a.toInt = q.toInt * b.toInt + r.toInt := by
  have hidiv := Act.idivq_eq hargs hread
  have heq := Act.divide_eq c hdivisor
  refine ⟨⟨fun h => ?_, fun h => ?_⟩, ⟨fun h => ?_, fun h => ?_⟩, fun h => ?_, fun b hb => ?_,
    fun l l' quot rem hquot hrem => ?_⟩
  · rw [hidiv, heq] at h
    split at h
    · assumption
    · split at h <;> cases h
  · rw [hidiv, heq, if_pos h]
  · rw [hidiv, heq] at h
    split at h
    · cases h
    · next hleast =>
      split at h
      · cases h
      · next hword => exact ⟨hword, hleast⟩
  · rw [hidiv, heq, if_neg h.2, if_neg h.1]
  · rw [hidiv]
    exact Act.divide_of_isWord hdivisor h
  · rw [Act.cqto_eq] at hb
    cases hb
    have hrax : (b.set .rdx (signWord (b.get .rax))).get .rax = b.get .rax := b.get_set_of_ne (by decide) _
    have hextended : (b.set .rdx (signWord (b.get .rax))).get .rdx =
        signWord ((b.set .rdx (signWord (b.get .rax))).get .rax) := by
      rw [b.get_set_self, hrax]
    refine ⟨by rw [Cpu.dividend_of_extended hextended, hrax], ⟨fun h => ?_, fun h => ?_⟩, fun h => ?_⟩
    · by_contra hfits
      obtain ⟨e, he, -⟩ := Act.divide_of_signWord hextended hdivisor (hrax.symm ▸ hfits)
      rw [hidiv, he] at h
      cases h
    · rw [hidiv, Act.divide_of_extended hextended, if_neg hdivisor, if_pos (hrax.symm ▸ h)]
    · rw [hidiv]
      exact Act.divide_of_signWord hextended hdivisor (hrax.symm ▸ h)
  · refine ⟨_, _, division_lines hquot, division_lines hrem, fun c a b ws h hb hfits => ?_⟩
    obtain ⟨d, e, f, hdividend, hdivided, hf, hholds⟩ := inOrder_divisionCode .rax .div h hb hfits
    obtain ⟨d', e', f', hdividend', hdivided', hf', hholds'⟩ := inOrder_divisionCode .rdx .mod h hb hfits
    refine ⟨_, _, f, f', hf, hholds, hf', hholds', by rw [hdivided.quotient, hdividend], ?_⟩
    have hquotient : (e.get .rax).toInt = (e'.get .rax).toInt := by
      rw [hdivided.quotient, hdivided'.quotient, hdividend, hdividend']
    rw [hquotient, ← hdivided'.eq, hdividend']

/-- A processor about to divide minus seven by two. -/
def halving : Cpu := ((Cpu.start (.replicate stackWords 0)).set .rax (-7)).set .r13 2

/-- Minus seven by two is minus three, and minus one is left. -/
theorem division_exact_halving :
    Act.execute .cqto [] halving = .ok () (halving.set .rdx (-1)) ∧
      ∃ d, Act.execute .idivq [.register .r13] (halving.set .rdx (-1)) = .ok () d ∧
        (d.get .rax).toInt = -3 ∧ (d.get .rdx).toInt = -1 := by
  have hrax : halving.get .rax = -7 := by
    rw [halving, Cpu.get_set_of_ne _ (by decide), Cpu.get_set_self]
  have hr13 : (halving.set .rdx (-1)).get .r13 = 2 := by
    rw [halving, Cpu.get_set_of_ne _ (by decide), Cpu.get_set_self]
  have hcqto : Act.execute .cqto [] halving = .ok () (halving.set .rdx (-1)) := by
    rw [Act.cqto_eq, hrax]
    rfl
  have hread : Act.read (.register .r13) (halving.set .rdx (-1)) = .ok 2 (halving.set .rdx (-1)) := by
    show EStateM.Result.ok _ _ = _
    rw [hr13]
  obtain ⟨-, -, -, hextended, -⟩ := @division_exact [.register .r13] _ _ 2 rfl hread (by decide)
  obtain ⟨hdividend, -, hdivides⟩ := hextended halving hcqto
  obtain ⟨d, hd, hdivided⟩ := hdivides (by rw [hrax]; decide)
  have hquotient : (d.get .rax).toInt = -3 := by
    rw [hdivided.quotient, hdividend, hrax]
    decide
  refine ⟨hcqto, d, hd, hquotient, ?_⟩
  rw [hdivided.remainder, hdividend, hquotient, hrax]
  decide

/-- **The least dividend by minus one stops the machine**: the quotient is no word, and still it is not an
overflow. -/
theorem divide_least_traps :
    let c := ((Cpu.start (.replicate stackWords 0)).set .rdx Int64.minValue).set .r13 (-1)
    Act.read (.register .r13) c = .ok (-1) c ∧ ¬ IsWord (c.dividend.tdiv (-1)) ∧
      Act.execute .idivq [.register .r13] c = .error .divisionTrap c := by
  generalize (Vector.replicate stackWords 0 : Stack) = s
  have hr13 : (((Cpu.start s).set .rdx Int64.minValue).set .r13 (-1)).get .r13 = -1 := Cpu.get_set_self _ _ _
  have hrdx : (((Cpu.start s).set .rdx Int64.minValue).set .r13 (-1)).get .rdx = Int64.minValue := by
    rw [Cpu.get_set_of_ne _ (by decide), Cpu.get_set_self]
  have hrax : (((Cpu.start s).set .rdx Int64.minValue).set .r13 (-1)).get .rax = 0 := by
    rw [Cpu.get_set_of_ne _ (by decide), Cpu.get_set_of_ne _ (by decide), Cpu.start, Cpu.get,
      Registers.get_set_of_ne _ (by decide), Registers.get_zero]
  have hleast := Cpu.dividend_eq_least.2 ⟨hrdx, hrax⟩
  have hread : Act.read (.register .r13) (((Cpu.start s).set .rdx Int64.minValue).set .r13 (-1)) =
      .ok (-1) (((Cpu.start s).set .rdx Int64.minValue).set .r13 (-1)) := by
    show EStateM.Result.ok _ _ = _
    rw [hr13]
  refine ⟨hread, ?_, ?_⟩
  · rw [hleast]
    decide
  · rw [Act.idivq_eq rfl hread, Act.divide_eq _ (by decide), if_pos ⟨hleast, rfl⟩]

end MicroC
