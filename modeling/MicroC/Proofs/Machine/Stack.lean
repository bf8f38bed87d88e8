import MicroC.Machine.Run
import MicroC.Proofs.Machine.Address
import MicroC.Proofs.Routine.Step

/-!
# The processor's stack

What the actions of the processor do to a stack of words, some of which have no known value.

* `Cpu.Holds`: the words on the stack of a processor.
* `Cpu.Alike`: nothing differs but the stack and its pointer.
-/

namespace MicroC

open Convention

/-- These words are on the stack, the last one first. A word with a value is in memory. -/
structure Cpu.Holds (c : Cpu) (ws : List (Option Int64)) : Prop where
  rsp : c.get .rsp = addr ws.length
  word : ∀ i w, under ws i = some (some w) → ∃ h : i < stackWords, c.stack.get ⟨i, h⟩ = w

/-- Nothing differs but the stack and its pointer. -/
structure Cpu.Alike (c d : Cpu) : Prop where
  reg : ∀ r, r ≠ .rsp → d.get r = c.get r
  flags : d.flags = c.flags
  returns : d.returns = c.returns

theorem Cpu.Alike.refl (c : Cpu) : c.Alike c := ⟨fun _ _ => rfl, rfl, rfl⟩

theorem Cpu.Alike.trans {c d e : Cpu} (h : c.Alike d) (h' : d.Alike e) : c.Alike e :=
  ⟨fun r hr => (h'.reg r hr).trans (h.reg r hr), h'.flags.trans h.flags, h'.returns.trans h.returns⟩

@[simp] theorem Cpu.get_set_self (c : Cpu) (r : Register) (w : Int64) : (c.set r w).get r = w :=
  Registers.get_set_self _ _ _

theorem Cpu.get_set_of_ne (c : Cpu) {r s : Register} (h : s ≠ r) (w : Int64) :
    (c.set r w).get s = c.get s :=
  Registers.get_set_of_ne _ h _

theorem Cpu.Alike.set_rsp (c : Cpu) (w : Int64) : c.Alike (c.set .rsp w) :=
  ⟨fun _ hr => c.get_set_of_ne hr w, rfl, rfl⟩

/-- The processor behind a pop. -/
def Cpu.popped (c : Cpu) : Cpu := c.set .rsp (c.get .rsp + Int64.ofNat wordSize)

/-- The word for a place is not the one that ends a run, and tells the place. -/
theorem ofNat_place {n : Nat} (h : n < 2 ^ 63) :
    Int64.ofNat n ≠ haltAddress ∧ (Int64.ofNat n).toInt.toNat = n := by
  have hint : (Int64.ofNat n).toInt = n := by
    rw [← Int64.ofInt_eq_ofNat]
    exact Int64.toInt_ofInt_of_le (by omega) (by omega)
  refine ⟨fun hc => ?_, by rw [hint]; rfl⟩
  rw [hc] at hint
  have hneg : haltAddress.toInt = -1 := rfl
  omega

/-! ## Overflow -/

/-- What comes of a push that finds no room on a stack of some words, or on the full stack that is there a few
pushes later. It is noticed unless the addresses wrapped around. -/
def overflowError (depth : Nat) : MachineError :=
  let address := (addr (max depth stackWords + 1)).toUInt64.toNat
  if address < stackBottom then .stackOverflow else .invalidAddress address

theorem overflowError_of_le {k : Nat} (hk : k ≤ stackWords + slack) : overflowError k = .stackOverflow := by
  rw [overflowError, if_pos]
  rw [addr_lt_stackBottom (by simp only [wordSize, stackTop, stackWords, slack] at *; omega)]
  exact Nat.le_max_right _ _

/-- The instructions up to the one that finds no room for a frame on a stack of some words. -/
def overflowSteps (depth : Nat) : Nat := stackWords - depth + 1

/-- What a state says of an overflow may be that. -/
theorem exists_far (s : State) : ∃ far, ∀ word, s.overflow ⟨word, far⟩ = overflowError s.depth := by
  by_cases hslack : s.depth ≤ stackWords + slack
  · refine ⟨none, fun word => ?_⟩
    rw [State.overflow, if_pos hslack, overflowError_of_le hslack]
  · rw [overflowError]
    by_cases hb : (addr (max s.depth stackWords + 1)).toUInt64.toNat < stackBottom
    · refine ⟨none, fun word => ?_⟩
      rw [if_pos hb, State.overflow, if_neg hslack]
    · refine ⟨some (addr (max s.depth stackWords + 1)).toUInt64.toNat, fun word => ?_⟩
      rw [if_neg hb, State.overflow, if_neg hslack]

namespace Act

variable {α β : Type} {c d : Cpu}

theorem bind_of_ok {x : Act α} {a : α} (h : x c = .ok a d) (f : α → Act β) : (x >>= f) c = f a d := by
  show EStateM.bind x f c = _
  rw [EStateM.bind, h]

theorem bind_of_error {x : Act α} {e : MachineError} (h : x c = .error e d) (f : α → Act β) :
    (x >>= f) c = .error e d := by
  show EStateM.bind x f c = _
  rw [EStateM.bind, h]

/-! ## One address -/

variable {a : Nat} {i : Fin stackWords}

theorem load_of_slot (h : slot? a = some i) (c : Cpu) : load a c = .ok (c.stack.get i) c := by
  unfold load
  rw [h]
  rfl

theorem load_of_none (h : slot? a = none) (c : Cpu) : load a c = .error (.invalidAddress a) c := by
  unfold load
  rw [h]

theorem store_of_slot (h : slot? a = some i) (w : Int64) (c : Cpu) :
    store a w c = .ok () { c with stack := c.stack.set i w i.isLt } := by
  unfold store
  rw [h]

theorem store_of_none (h : slot? a = none) (w : Int64) (c : Cpu) :
    store a w c = .error (.invalidAddress a) c := by
  unfold store
  rw [h]

/-! ## Pushing and popping -/

theorem push_of_below (w : Int64) {rsp : Int64} (hr : c.get .rsp - Int64.ofNat wordSize = rsp)
    (hb : rsp.toUInt64.toNat < stackBottom) : push w c = .error .stackOverflow c := by
  unfold push
  rw [bind_of_ok (show get .rsp c = .ok (c.get .rsp) c from rfl)]
  dsimp only
  rw [hr, if_pos hb]
  rfl

theorem push_of_slot (w : Int64) {rsp : Int64} (hr : c.get .rsp - Int64.ofNat wordSize = rsp)
    (hb : ¬ rsp.toUInt64.toNat < stackBottom) (hs : slot? rsp.toUInt64.toNat = some i) :
    push w c = .ok () ({ c with stack := c.stack.set i w }.set .rsp rsp) := by
  unfold push
  rw [bind_of_ok (show get .rsp c = .ok (c.get .rsp) c from rfl)]
  dsimp only
  rw [hr, if_neg hb]
  exact bind_of_ok (store_of_slot hs w c) _

theorem push_of_none (w : Int64) {rsp : Int64} (hr : c.get .rsp - Int64.ofNat wordSize = rsp)
    (hb : ¬ rsp.toUInt64.toNat < stackBottom) (hs : slot? rsp.toUInt64.toNat = none) :
    push w c = .error (.invalidAddress rsp.toUInt64.toNat) c := by
  unfold push
  rw [bind_of_ok (show get .rsp c = .ok (c.get .rsp) c from rfl)]
  dsimp only
  rw [hr, if_neg hb]
  exact bind_of_error (store_of_none hs w c) _

theorem pop_of_slot (h : slot? c.rsp = some i) : pop c = .ok (c.stack.get i) c.popped := by
  unfold pop
  rw [bind_of_ok (show get .rsp c = .ok (c.get .rsp) c from rfl)]
  exact bind_of_ok (load_of_slot h c) _

theorem pop_of_none (h : slot? c.rsp = none) : pop c = .error (.invalidAddress c.rsp) c := by
  unfold pop
  rw [bind_of_ok (show get .rsp c = .ok (c.get .rsp) c from rfl)]
  exact bind_of_error (load_of_none h c) _

theorem leave_of_slot (h : slot? c.rsp = some i) :
    leave c =
      if c.returns.head? ≠ some (c.stack.get i) then
        .error .corruptReturnAddress { c.popped with returns := c.returns.tail }
      else if c.stack.get i = haltAddress then .ok (.halt (c.get .rax)) { c.popped with returns := c.returns.tail }
      else .ok (.goto (c.stack.get i).toInt.toNat) { c.popped with returns := c.returns.tail } := by
  have htaken : (modifyGet fun c : Cpu => (c.returns.head?, { c with returns := c.returns.tail }) :
      Act (Option Int64)) c.popped = .ok c.returns.head? { c.popped with returns := c.returns.tail } := rfl
  have hrax : ({ c.popped with returns := c.returns.tail } : Cpu).get .rax = c.get .rax :=
    Registers.get_set_of_ne _ (by decide) _
  unfold leave
  rw [bind_of_ok (pop_of_slot h), bind_of_ok htaken]
  dsimp only
  by_cases hhead : c.returns.head? = some (c.stack.get i)
  · rw [if_neg (not_not_intro hhead), if_neg (not_not_intro hhead)]
    by_cases hhalt : c.stack.get i = haltAddress
    · rw [if_pos hhalt, if_pos hhalt, ← hrax]
      rfl
    · rw [if_neg hhalt, if_neg hhalt]
      rfl
  · rw [if_pos hhead, if_pos hhead]
    rfl

variable {ws : List (Option Int64)}

theorem push_of_lt (h : c.Holds ws) (hw : ws.length < stackWords) (w : Int64) :
    ∃ d, push w c = .ok () d ∧ d.Holds (some w :: ws) ∧ c.Alike d := by
  have hrsp : c.get .rsp - Int64.ofNat wordSize = addr (ws.length + 1) := by rw [h.rsp, addr_succ]
  refine ⟨_, push_of_slot w hrsp (not_addr_lt_stackBottom hw) (slot?_addr hw), ⟨?_, ?_⟩, ⟨?_, rfl, rfl⟩⟩
  · rw [Cpu.get_set_self]
    rfl
  · intro i v hi
    rw [under_cons] at hi
    by_cases hil : i = ws.length
    · rw [if_pos hil] at hi
      cases hi
      subst hil
      refine ⟨hw, ?_⟩
      exact Vector.getElem_set_self hw
    · rw [if_neg hil] at hi
      obtain ⟨hlt, hv⟩ := h.word i v hi
      refine ⟨hlt, ?_⟩
      rw [← hv]
      exact Vector.getElem_set_ne hw hlt (Ne.symm hil)
  · exact fun r hr => Cpu.get_set_of_ne _ hr _

theorem push_of_ge (h : c.Holds ws) (hw : stackWords ≤ ws.length) (hs : ws.length + 1 < addressLimit) (w : Int64) :
    push w c = .error (overflowError ws.length) c := by
  have hrsp : c.get .rsp - Int64.ofNat wordSize = addr (ws.length + 1) := by rw [h.rsp, addr_succ]
  rw [overflowError, Nat.max_eq_left hw]
  by_cases hb : (addr (ws.length + 1)).toUInt64.toNat < stackBottom
  · rw [if_pos hb]
    exact push_of_below w hrsp hb
  · rw [if_neg hb]
    exact push_of_none w hrsp hb (slot?_addr_none hw hs)

theorem pop_of_holds {w : Int64} (h : c.Holds (some w :: ws)) :
    ∃ d, pop c = .ok w d ∧ d.Holds ws ∧ c.Alike d := by
  obtain ⟨hlt, hw⟩ := h.word ws.length w (by rw [under_cons, if_pos rfl])
  have hrsp : c.get .rsp = addr (ws.length + 1) := h.rsp
  have hslot : slot? c.rsp = some ⟨ws.length, hlt⟩ := by rw [Cpu.rsp, hrsp, slot?_addr hlt]
  refine ⟨c.popped, (pop_of_slot hslot).trans (by rw [hw]), ⟨?_, ?_⟩, .set_rsp c _⟩
  · rw [Cpu.popped, Cpu.get_set_self, hrsp, addr_pred]
  · intro i v hi
    refine h.word i v ?_
    rw [under_cons, if_neg (Nat.ne_of_lt (lt_of_under hi)), hi]

/-! ## Words in the middle -/

theorem load_of_under (h : c.Holds ws) {i : Nat} {w : Int64} (hi : under ws i = some (some w)) :
    load (addr (i + 1)).toUInt64.toNat c = .ok w c := by
  obtain ⟨hlt, hw⟩ := h.word i w hi
  rw [load_of_slot (slot?_addr hlt), hw]

/-- Reading any word gives some value, or there is no memory for it. -/
theorem load_addr {i : Nat} (hi : i + 1 < addressLimit) (c : Cpu) :
    ∃ word : Except Nat Int64, load (addr (i + 1)).toUInt64.toNat c =
      match word with
      | .ok w => .ok w c
      | .error a => .error (.invalidAddress a) c := by
  by_cases hlt : i < stackWords
  · exact ⟨.ok _, load_of_slot (slot?_addr hlt) c⟩
  · exact ⟨.error _, load_of_none (slot?_addr_none (by omega) hi) c⟩

theorem store_of_lt (h : c.Holds ws) {i : Nat} (hi : i < ws.length) (hlt : i < stackWords) (w : Int64) :
    ∃ d, store (addr (i + 1)).toUInt64.toNat w c = .ok () d ∧ d.Holds (setUnder ws i (some w)) ∧
      c.Alike d := by
  refine ⟨_, store_of_slot (slot?_addr hlt) w c, ⟨?_, ?_⟩, ⟨fun _ _ => rfl, rfl, rfl⟩⟩
  · rw [length_setUnder]
    exact h.rsp
  · intro j v hj
    rw [under_setUnder] at hj
    by_cases hij : i = j
    · subst hij
      rw [if_pos ⟨rfl, hi⟩] at hj
      cases hj
      exact ⟨hlt, Vector.getElem_set_self hlt⟩
    · rw [if_neg (fun hc => hij hc.1)] at hj
      obtain ⟨hjl, hv⟩ := h.word j v hj
      refine ⟨hjl, ?_⟩
      rw [← hv]
      exact Vector.getElem_set_ne hlt hjl hij

theorem store_of_ge {i : Nat} (hi : i + 1 < addressLimit) (hge : stackWords ≤ i) (w : Int64) :
    ∃ a, store (addr (i + 1)).toUInt64.toNat w c = .error (.invalidAddress a) c :=
  ⟨_, store_of_none (slot?_addr_none hge hi) w c⟩

end Act

/-! ## Moving the stack pointer -/

variable {c : Cpu} {ws : List (Option Int64)}

theorem Cpu.Holds.grow (h : c.Holds ws) :
    (c.set .rsp (c.get .rsp - Int64.ofNat wordSize)).Holds (none :: ws) := by
  refine ⟨?_, ?_⟩
  · rw [Cpu.get_set_self, h.rsp, addr_succ]
    rfl
  · intro i w hi
    rw [under_cons] at hi
    by_cases hil : i = ws.length
    · rw [if_pos hil] at hi
      simp at hi
    · rw [if_neg hil] at hi
      exact h.word i w hi

theorem Cpu.Holds.drop (h : c.Holds ws) {n : Nat} {rsp : Int64}
    (hrsp : rsp = addr (ws.length - n)) : (c.set .rsp rsp).Holds (ws.drop n) := by
  refine ⟨?_, ?_⟩
  · rw [Cpu.get_set_self, hrsp, List.length_drop]
  · intro i w hi
    refine h.word i w ?_
    have hlt := lt_of_under hi
    have happ := under_append (ws.take n) (ws.drop n) i
    rw [List.take_append_drop, if_pos hlt] at happ
    rw [happ, hi]

theorem Cpu.Holds.set (h : c.Holds ws) {r : Register} (hr : r ≠ .rsp) (w : Int64) :
    (c.set r w).Holds ws :=
  ⟨(c.get_set_of_ne (Ne.symm hr) w).trans h.rsp, h.word⟩

end MicroC
