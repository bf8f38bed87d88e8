import MicroC.Proofs.Machine.Data
import MicroC.Proofs.Routine.Layout

/-!
# States of routines on the processor

A processor mirrors a state of a routine when its registers have the values of the state and its stack
holds the frame and, above it, all that the callers left there.

* `context`: the words above the frame pointer.
* `Mirrors`: a processor has the data of a state.
* **`Mirrors.read`**: a source denotes for the processor what it denotes for the state.
-/

namespace MicroC

open Convention

/-! ## Contexts -/

/-- The frame pointer of a routine with the given callers. -/
def frameAddress : List Caller → Int64
  | [] => 0
  | c :: cs => addr (contextDepth (c :: cs))

/-- Where a caller goes on. -/
def Caller.address (prog : List Subroutine) (c : Caller) : Int64 :=
  match c.back with
  | none => haltAddress
  | some (r, k) => Int64.ofNat (pcOf prog r k)

/-- The words between two frames, the return address last. -/
def link (prog : List Subroutine) (c : Caller) (cs : List Caller) : List (Option Int64) :=
  [some (frameAddress cs), some (c.regs .rbx), some (frameAddress cs), some (c.regs .r12),
    some (c.regs .r13), some (c.regs .r14), some (c.regs .r15), some (c.address prog)]

/-- The words above the frame pointer. -/
def context (prog : List Subroutine) : List Caller → List (Option Int64)
  | [] => []
  | c :: cs => link prog c cs ++ (c.words ++ context prog cs)

@[simp] theorem length_context (prog : List Subroutine) (cs : List Caller) :
    (context prog cs).length = contextDepth cs := by
  induction cs with
  | nil => rfl
  | cons c cs ih =>
    rw [context, contextDepth, List.length_append, List.length_append, ih]
    simp [link, linkWords]
    omega

/-- A processor has the data of a state. -/
structure Mirrors (prog : List Subroutine) (s : State) (c : Cpu) : Prop where
  reg : ∀ r : Reg, c.get r.register = s.regs r
  rbp : c.get .rbp = frameAddress s.callers
  holds : c.Holds (s.words ++ context prog s.callers)
  flags : c.flags = s.flags
  returns : c.returns = s.callers.map (Caller.address prog)

theorem Mirrors.at {prog : List Subroutine} {s : State} {c : Cpu} (h : Mirrors prog s c) (k : List Item) :
    Mirrors prog { s with rest := k } c :=
  ⟨h.reg, h.rbp, h.holds, h.flags, h.returns⟩

/-- There are callers, and addresses do not wrap around. -/
structure State.Fits (s : State) : Prop where
  called : s.callers ≠ []
  depth : s.depth + 1 < addressLimit
  arity : s.routine.arity < 2 ^ 59
  /-- Only the outermost call ends the run. -/
  outermost : ∀ c cs, s.callers = c :: cs → c.back = none → c.words = [] ∧ cs = []

namespace Mirrors

variable {prog : List Subroutine} {s : State} {c d : Cpu} {ws : List (Option Int64)}

theorem set (h : Mirrors prog s c) (r : Reg) (w : Int64) :
    Mirrors prog (s.set r w) (c.set r.register w) := by
  refine ⟨fun q => ?_, ?_, h.holds.set r.ne_rsp w, h.flags, h.returns⟩
  · rw [State.set_regs]
    by_cases hq : q = r
    · subst hq
      rw [if_pos rfl, Cpu.get_set_self]
    · rw [if_neg hq, Cpu.get_set_of_ne _ (fun hc => hq (Reg.register_injective hc))]
      exact h.reg q
  · rw [Cpu.get_set_of_ne _ (Ne.symm r.ne_rbp)]
    exact h.rbp

theorem words (h : Mirrors prog s c) (hd : c.Alike d) (hw : d.Holds (ws ++ context prog s.callers)) :
    Mirrors prog { s with words := ws } d :=
  ⟨fun r => (hd.reg _ r.ne_rsp).trans (h.reg r), (hd.reg _ (by decide)).trans h.rbp, hw,
    hd.flags.trans h.flags, hd.returns.trans h.returns⟩

theorem rbp_eq (h : Mirrors prog s c) (hs : s.callers ≠ []) :
    c.get .rbp = addr (contextDepth s.callers) := by
  rw [h.rbp]
  cases hc : s.callers with
  | nil => exact absurd hc hs
  | cons => rfl

theorem under_slot (s : State) (n : Nat) :
    under (s.words ++ context prog s.callers) (contextDepth s.callers + n) = under s.words n := by
  rw [under_append, length_context, if_neg (by omega), Nat.add_sub_cancel_left]

/-! ## Sources -/

theorem slot_address (h : Mirrors prog s c) (hs : s.callers ≠ []) (n : Nat) :
    c.get .rbp + Int64.ofInt (Src.slotOffset n) = addr (contextDepth s.callers + n + 1) := by
  rw [h.rbp_eq hs, Src.slotOffset, addr_sub]
  rfl

theorem param_address (h : Mirrors prog s c) (hs : s.callers ≠ []) {n : Nat}
    (hn : n + linkWords ≤ contextDepth s.callers) :
    c.get .rbp + Int64.ofInt (Src.paramOffset n) =
      addr (contextDepth s.callers - (n + linkWords)) := by
  rw [h.rbp_eq hs]
  exact addr_add _ _ hn

theorem read_slot (h : Mirrors prog s c) (hs : s.Fits) {n : Nat} (hn : n < s.words.length) :
    ∃ word, ∀ far v, (Src.slot n).read ⟨word, far⟩ s = some v →
      Act.read (Src.slot n).arg c = settled c v := by
  have haddr : Act.read (Src.slot n).arg c =
      Act.load (addr (contextDepth s.callers + n + 1)).toUInt64.toNat c := by
    rw [Src.arg, Act.read_memory, h.slot_address hs.called]
  have hlimit : contextDepth s.callers + n + 1 < addressLimit := by
    have := hs.depth
    rw [State.depth] at this
    omega
  obtain ⟨word, hword⟩ := Act.load_addr hlimit c
  refine ⟨word, fun far v hv => ?_⟩
  rw [haddr]
  rw [Src.read] at hv
  cases hu : under s.words n with
  | none => simp [hu] at hv
  | some w =>
    rw [hu, Option.map_some, Option.some.injEq] at hv
    subst hv
    cases w with
    | some w => exact Act.load_of_under h.holds (by rw [under_slot, hu])
    | none =>
      rw [hword]
      cases word <;> rfl

theorem contextDepth_cons (a : Caller) (cs : List Caller) :
    contextDepth (a :: cs) = linkWords + a.words.length + contextDepth cs := rfl

theorem under_param {a : Caller} {cs : List Caller} {n : Nat} (hn : n < a.words.length)
    (ws : List (Option Int64)) :
    under (ws ++ context prog (a :: cs)) (contextDepth (a :: cs) - (n + linkWords) - 1) =
      a.words[n]? := by
  have hd := contextDepth_cons a cs
  rw [under_append, length_context, if_pos (by omega), context, under_append,
    if_pos (by rw [List.length_append, length_context]; omega), under_append, length_context,
    if_neg (by omega)]
  unfold under
  rw [List.getElem?_reverse (by omega)]
  congr 1
  omega

/-- An argument on the stack is a word of the caller. -/
theorem read_param_of_lt (h : Mirrors prog s c) (hs : s.Fits) {a : Caller} {cs : List Caller}
    (hc : s.callers = a :: cs) {n : Nat} (hn : n < a.words.length) :
    ∃ word, ∀ far v, (Src.param n).read ⟨word, far⟩ s = some v → Act.read (Src.param n).arg c = settled c v := by
  have hd := hc ▸ contextDepth_cons a cs
  have hdepth := hs.depth
  rw [State.depth] at hdepth
  have haddr : Act.read (Src.param n).arg c =
      Act.load (addr (contextDepth s.callers - (n + linkWords) - 1 + 1)).toUInt64.toNat c := by
    have hone : contextDepth s.callers - (n + linkWords) - 1 + 1 =
        contextDepth s.callers - (n + linkWords) := by omega
    rw [hone, Src.arg, Act.read_memory, h.param_address hs.called (by omega)]
  have hlimit : contextDepth s.callers - (n + linkWords) - 1 + 1 < addressLimit := by omega
  obtain ⟨word, hword⟩ := Act.load_addr hlimit c
  refine ⟨word, fun far v hv => ?_⟩
  have hu := @under_param prog a cs n hn s.words
  rw [← hc, List.getElem?_eq_getElem hn] at hu
  rw [haddr]
  rw [Src.read, hc] at hv
  dsimp only at hv
  by_cases ha : argumentRegisters.length + n < s.routine.arity
  · rw [if_pos ha, List.getElem?_eq_getElem hn] at hv
    dsimp only at hv
    cases hw : a.words.get ⟨n, hn⟩ with
    | some w =>
      rw [show a.words[n] = some w from hw] at hu hv
      cases hv
      exact Act.load_of_under h.holds hu
    | none =>
      rw [show a.words[n] = none from hw] at hv
      cases hv
      rw [hword]
      cases word <;> rfl
  · rw [if_neg ha] at hv
    cases hv

/-- The outermost frame starts at the top of the stack, and there are no arguments behind it. -/
theorem read_param_of_ge (h : Mirrors prog s c) (hs : s.Fits) {a : Caller} {cs : List Caller}
    (hc : s.callers = a :: cs) {n : Nat} (hn : a.words.length ≤ n) {junk : Junk} {v : Except MachineError Int64}
    (hv : (Src.param n).read junk s = some v) : Act.read (Src.param n).arg c = settled c v := by
  rw [Src.read, hc] at hv
  dsimp only at hv
  by_cases ha : argumentRegisters.length + n < s.routine.arity
  · rw [if_pos ha, List.getElem?_eq_none hn] at hv
    dsimp only at hv
    cases hb : a.back with
    | some x =>
      rw [hb] at hv
      cases hv
    | none =>
      rw [hb] at hv
      cases hv
      obtain ⟨hw, rfl⟩ := hs.outermost a cs hc hb
      have hlink : contextDepth s.callers = linkWords := by
        rw [hc, contextDepth_cons, hw]
        rfl
      have haddr : (c.get .rbp + Int64.ofInt (Src.paramOffset n)).toUInt64.toNat = stackTop + wordSize * n := by
        rw [h.rbp_eq hs.called, hlink, addr, ← Int64.ofInt_add, toNat_ofInt]
        have harity := hs.arity
        simp only [Src.paramOffset, wordSize, stackTop, linkWords, calleeSaved, List.length_cons,
          List.length_nil, argumentRegisters] at *
        omega
      rw [Src.arg, Act.read_memory, haddr]
      refine Act.load_of_none ?_ c
      unfold slot?
      rw [dif_neg (by omega)]
  · rw [if_neg ha] at hv
    cases hv

theorem read_param (h : Mirrors prog s c) (hs : s.Fits) (n : Nat) :
    ∃ word, ∀ far v, (Src.param n).read ⟨word, far⟩ s = some v → Act.read (Src.param n).arg c = settled c v := by
  obtain ⟨a, cs, hc⟩ := List.exists_cons_of_ne_nil hs.called
  by_cases hn : n < a.words.length
  · exact h.read_param_of_lt hs hc hn
  · exact ⟨.ok 0, fun _ _ hv => h.read_param_of_ge hs hc (Nat.le_of_not_lt hn) hv⟩

/-- **A source denotes what it denotes for the state.** -/
theorem read (h : Mirrors prog s c) (hs : s.Fits) (src : Src) :
    ∃ word, ∀ far v, src.read ⟨word, far⟩ s = some v → Act.read src.arg c = settled c v := by
  cases src with
  | imm w =>
    refine ⟨.ok 0, fun far v hv => ?_⟩
    cases hv
    rfl
  | reg r =>
    refine ⟨.ok 0, fun far v hv => ?_⟩
    cases hv
    show EStateM.Result.ok (c.get r.register) c = _
    rw [h.reg]
    rfl
  | slot n =>
    by_cases hn : n < s.words.length
    · exact h.read_slot hs hn
    · refine ⟨.ok 0, fun far v hv => ?_⟩
      rw [Src.read, under_eq_none.2 (by omega)] at hv
      cases hv
  | param n => exact h.read_param hs n

end Mirrors

end MicroC
