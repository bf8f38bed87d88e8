import MicroC.Proofs.Routine.Mirror

/-!
# Operations on data

* `Carried`: an action does to the processor what an outcome says of the state.
* `Mirrors.execute`: **the instruction of an operation on data carries the operation out.**
-/

namespace MicroC

open Convention

section

variable {σ : Type}

/-- An action does to the processor what an outcome says of the state. -/
def Carried (prog : List Subroutine) (act : Act Unit) (c : Cpu) (s : State) (host : σ) :
    Outcome σ → Prop
  | .goes t host' =>
    host' = host ∧ t.routine = s.routine ∧ t.rest = s.rest ∧ ∃ d, act c = .ok () d ∧ Mirrors prog t d
  | .halts .. => False
  | .fails e host' => host' = host ∧ ∃ d, act c = .error e d

variable {prog : List Subroutine} {s : State} {c : Cpu} {host : σ}

/-- An action that first reads an operand and then goes on with its value. -/
structure ReadsFirst (a : Arg) (g : Int64 → Act Unit) (act : Act Unit) (c : Cpu) : Prop where
  of_ok : ∀ w, Act.read a c = .ok w c → act c = g w c
  of_error : ∀ e, Act.read a c = .error e c → act c = .error e c

theorem ReadsFirst.bind (a : Arg) (g : Int64 → Act Unit) (c : Cpu) :
    ReadsFirst a g (Act.read a >>= g) c :=
  ⟨fun _ h => Act.bind_of_ok h g, fun _ h => Act.bind_of_error h g⟩

theorem ReadsFirst.combine (opcode : Opcode) (f : Int64 → Int64 → Int64) (a : Arg) (r : Register)
    (c : Cpu) :
    ReadsFirst a (fun w => Act.set r (f (c.get r) w)) (Act.combine opcode [a, .register r] f) c :=
  ⟨fun _ h => Act.combine_of_ok opcode f h, fun _ h => Act.combine_of_error opcode f h⟩

theorem Carried.reading {src : Src} {junk : Junk} {act : Act Unit} {g : Int64 → Act Unit}
    (hread : ∀ v, src.read junk s = some v → Act.read src.arg c = settled c v)
    (hact : ReadsFirst src.arg g act c) {f : Int64 → Option (Outcome σ)}
    (hf : ∀ w out, f w = some out → Carried prog (g w) c s host out) (out : Outcome σ)
    (hout : Outcome.reading (src.read junk s) host f = some out) : Carried prog act c s host out := by
  cases hv : src.read junk s with
  | none =>
    rw [hv] at hout
    cases hout
  | some v =>
    rw [hv] at hout
    have hr := hread v hv
    cases v with
    | error e =>
      cases hout
      exact ⟨rfl, c, hact.of_error e hr⟩
    | ok w =>
      have hcarried := hf w out hout
      have heq := hact.of_ok w hr
      cases out with
      | goes t host' =>
        obtain ⟨hh, hroutine, hrest, d, hd, hm⟩ := hcarried
        exact ⟨hh, hroutine, hrest, d, heq.trans hd, hm⟩
      | halts => exact hcarried
      | fails e host' =>
        obtain ⟨hh, d, hd⟩ := hcarried
        exact ⟨hh, d, heq.trans hd⟩

variable [Host σ]

namespace Mirrors

theorem length_stack (s : State) : (s.words ++ context prog s.callers).length = s.depth := by
  rw [List.length_append, length_context]
  rfl

/-! ## Pushing and popping -/

theorem push_overflow (h : Mirrors prog s c) (hs : s.depth + 1 < addressLimit)
    (hd : stackWords ≤ s.depth) (w : Int64) : Act.push w c = .error (overflowError s.depth) c := by
  have hlen : (s.words ++ context prog s.callers).length = s.depth := length_stack s
  rw [← hlen] at hs hd ⊢
  exact Act.push_of_ge h.holds hd hs w

theorem push_of_lt (h : Mirrors prog s c) (hd : s.depth < stackWords) (w : Int64) :
    ∃ d, Act.push w c = .ok () d ∧ Mirrors prog { s with words := some w :: s.words } d := by
  obtain ⟨d, hd, hholds, halike⟩ := Act.push_of_lt h.holds (by rwa [length_stack]) w
  exact ⟨d, hd, h.words halike hholds⟩

theorem execute_push (h : Mirrors prog s c) (hs : s.Fits) (src : Src) (k : Kind) :
    ∃ junk, ∀ out, (Op.push src k).run prog junk s host = some out →
      Carried prog (Act.execute .pushq [src.arg]) c s host out := by
  obtain ⟨word, hword⟩ := h.read hs src
  by_cases hd : s.depth < stackWords
  · refine ⟨⟨word, none⟩, Carried.reading (hword none) (.bind _ _ c) ?_⟩
    intro w out hout
    rw [if_pos hd] at hout
    cases hout
    exact ⟨rfl, rfl, rfl, h.push_of_lt hd w⟩
  · obtain ⟨far, hfar⟩ := exists_far s
    refine ⟨⟨word, far⟩, Carried.reading (hword far) (.bind _ _ c) ?_⟩
    intro w out hout
    rw [if_neg hd, hfar] at hout
    cases hout
    exact ⟨rfl, c, h.push_overflow hs.depth (Nat.le_of_not_lt hd) w⟩

theorem execute_pop (h : Mirrors prog s c) (r : Reg) (junk : Junk) (out : Outcome σ)
    (hout : (Op.pop r).run prog junk s host = some out) :
    Carried prog (Act.execute .popq [.register r.register]) c s host out := by
  rw [Op.run] at hout
  split at hout
  · next w ws hw =>
    cases hout
    have hholds := h.holds
    rw [hw] at hholds
    obtain ⟨d, hd, hholds, halike⟩ := Act.pop_of_holds hholds
    refine ⟨rfl, rfl, rfl, d.set r.register w, ?_, (h.words halike hholds).set r w⟩
    show (Act.pop >>= _) c = _
    rw [Act.bind_of_ok hd]
    rfl
  · cases hout

theorem execute_peek (h : Mirrors prog s c) (r : Reg) (junk : Junk) (out : Outcome σ)
    (hout : (Op.peek r).run prog junk s host = some out) :
    Carried prog (Act.execute .movq [.memory 0 .rsp, .register r.register]) c s host out := by
  rw [Op.run] at hout
  split at hout
  · next w ws hw =>
    cases hout
    have hread : Act.read (.memory 0 .rsp) c = .ok w c := by
      rw [Act.read_memory, Int64.add_zero, h.holds.rsp, hw]
      refine Act.load_of_under h.holds ?_
      rw [hw, List.cons_append, under_cons]
      exact if_pos rfl
    refine ⟨rfl, rfl, rfl, c.set r.register w, ?_, h.set r w⟩
    show (Act.read _ >>= _) c = _
    rw [Act.bind_of_ok hread]
    rfl
  · cases hout

theorem execute_grow (h : Mirrors prog s c) (junk : Junk) (out : Outcome σ)
    (hout : Op.grow.run prog junk s host = some out) :
    Carried prog (Act.execute .subq Op.grow.args) c s host out := by
  cases hout
  refine ⟨rfl, rfl, rfl, _, Act.combine_of_ok .subq (· - ·) (show _ = EStateM.Result.ok _ c from rfl), ?_⟩
  refine h.words (.set_rsp c _) ?_
  rw [show Int64.ofInt wordSize = Int64.ofNat wordSize from rfl]
  exact h.holds.grow

theorem execute_shrink (h : Mirrors prog s c) (n : Nat) (junk : Junk) (out : Outcome σ)
    (hout : (Op.shrink n).run prog junk s host = some out) :
    Carried prog (Act.execute .addq (Op.shrink n).args) c s host out := by
  rw [Op.run] at hout
  split at hout
  · next hn =>
    cases hout
    refine ⟨rfl, rfl, rfl, _, Act.combine_of_ok .addq (· + ·) (show _ = EStateM.Result.ok _ c from rfl), ?_⟩
    refine h.words (.set_rsp c _) ?_
    have hrsp : c.get .rsp + Int64.ofInt ((n + 1) * wordSize : Nat) =
        addr ((s.words ++ context prog s.callers).length - (n + 1)) := by
      rw [h.holds.rsp, Nat.mul_comm]
      exact addr_add _ _ (by rw [List.length_append]; omega)
    have hdrop := h.holds.drop hrsp
    rwa [List.drop_append_of_le_length (by omega)] at hdrop
  · cases hout

/-! ## Moving and computing -/

theorem execute_move (h : Mirrors prog s c) (hs : s.Fits) (src : Src) (r : Reg) :
    ∃ junk, ∀ out, (Op.move src r).run prog junk s host = some out →
      Carried prog (Act.execute .movq [src.arg, .register r.register]) c s host out := by
  obtain ⟨word, hword⟩ := h.read hs src
  refine ⟨⟨word, none⟩, Carried.reading (hword none) (.bind _ _ c) ?_⟩
  intro w out hout
  cases hout
  exact ⟨rfl, rfl, rfl, _, rfl, h.set r w⟩

theorem setUnder_slot (s : State) (n : Nat) (w : Option Int64) :
    setUnder (s.words ++ context prog s.callers) (contextDepth s.callers + n) w =
      setUnder s.words n w ++ context prog s.callers := by
  unfold setUnder
  rw [List.reverse_append, List.set_append_right _ _ (by simp), List.reverse_append,
    List.reverse_reverse, List.length_reverse, length_context, Nat.add_sub_cancel_left]

theorem execute_store (h : Mirrors prog s c) (hs : s.Fits) (r : Reg) (n : Nat) :
    ∃ junk, ∀ out, (Op.store r n).run prog junk s host = some out →
      Carried prog (Act.execute .movq [.register r.register, (Src.slot n).arg]) c s host out := by
  have hact : Act.execute .movq [.register r.register, (Src.slot n).arg] c =
      Act.store (addr (contextDepth s.callers + n + 1)).toUInt64.toNat (s.regs r) c := by
    rw [← h.reg r, ← h.slot_address hs.called]
    exact Act.move_to_memory _ _ _ c
  have hdepth := hs.depth
  rw [State.depth] at hdepth
  by_cases hn : n < s.words.length
  · by_cases hlt : contextDepth s.callers + n < stackWords
    · refine ⟨⟨.ok 0, none⟩, fun out hout => ?_⟩
      have hi : contextDepth s.callers + n < (s.words ++ context prog s.callers).length := by
        rw [length_stack, State.depth]
        omega
      obtain ⟨d, hd, hholds, halike⟩ := Act.store_of_lt h.holds hi hlt (s.regs r)
      rw [setUnder_slot s n] at hholds
      have hout' : out = .goes { s with words := setUnder s.words n (some (s.regs r)) } host := by
        rw [Op.run] at hout
        split at hout
        · cases hout
        · next w hw => cases w <;> exact (Option.some.inj hout).symm
      subst hout'
      exact ⟨rfl, rfl, rfl, d, hact.trans hd, h.words halike hholds⟩
    · have hi : contextDepth s.callers + n + 1 < addressLimit := by omega
      obtain ⟨a, ha⟩ := Act.store_of_ge hi (by omega) (s.regs r)
      refine ⟨⟨.error a, none⟩, fun out hout => ?_⟩
      rw [Op.run] at hout
      split at hout
      · cases hout
      · next w hw =>
        cases w with
        | some w =>
          -- A word with a value is in memory.
          obtain ⟨hi, -⟩ := h.holds.word (contextDepth s.callers + n) w (by rw [under_slot, hw])
          exact absurd hi hlt
        | none =>
          cases hout
          exact ⟨rfl, c, hact.trans ha⟩
  · refine ⟨⟨.ok 0, none⟩, fun out hout => ?_⟩
    rw [Op.run, under_eq_none.2 (by omega)] at hout
    cases hout

theorem execute_combine (h : Mirrors prog s c) (hs : s.Fits) (f : Arith) (src : Src) (r : Reg) :
    ∃ junk, ∀ out, (Op.combine f src r).run prog junk s host = some out →
      Carried prog (Act.execute f.opcode [src.arg, .register r.register]) c s host out := by
  obtain ⟨word, hword⟩ := h.read hs src
  have hact : ReadsFirst src.arg (fun w => Act.set r.register (f.apply (c.get r.register) w))
      (Act.execute f.opcode [src.arg, .register r.register]) c := by
    cases f with
    | add => exact .combine .addq (· + ·) src.arg r.register c
    | sub => exact .combine .subq (· - ·) src.arg r.register c
    | mul => exact .combine .imulq (· * ·) src.arg r.register c
  refine ⟨⟨word, none⟩, Carried.reading (hword none) hact ?_⟩
  intro w out hout
  cases hout
  refine ⟨rfl, rfl, rfl, _, rfl, ?_⟩
  rw [h.reg r]
  exact h.set r _

theorem execute_negate (h : Mirrors prog s c) (r : Reg) (junk : Junk) (out : Outcome σ)
    (hout : (Op.negate r).run prog junk s host = some out) :
    Carried prog (Act.execute .negq [.register r.register]) c s host out := by
  cases hout
  refine ⟨rfl, rfl, rfl, c.set r.register (-(c.get r.register)), rfl, ?_⟩
  rw [h.reg r]
  exact h.set r _

theorem execute_extend (h : Mirrors prog s c) (junk : Junk) (out : Outcome σ)
    (hout : Op.extend.run prog junk s host = some out) :
    Carried prog (Act.execute .cqto []) c s host out := by
  cases hout
  refine ⟨rfl, rfl, rfl, c.set .rdx (signWord (c.get .rax)), rfl, ?_⟩
  rw [show c.get .rax = s.regs .rax from h.reg .rax]
  exact h.set .rdx _

theorem execute_divide (h : Mirrors prog s c) (r : Reg) (junk : Junk) (out : Outcome σ)
    (hout : (Op.divide r).run prog junk s host = some out) :
    Carried prog (Act.execute .idivq [.register r.register]) c s host out := by
  have hrax : c.get .rax = s.regs .rax := h.reg .rax
  have hrdx : c.get .rdx = s.regs .rdx := h.reg .rdx
  have hact : Act.execute .idivq [.register r.register] c = Act.divide (c.get r.register) c := rfl
  rw [Op.run] at hout
  split at hout
  · next hwide =>
    rw [Act.divide_of_extended (by rw [hrax, hrdx, hwide]), h.reg r, hrax] at hact
    by_cases hz : s.regs r = 0
    · rw [if_pos hz] at hout hact
      cases hout
      exact ⟨rfl, c, hact⟩
    rw [if_neg hz] at hout hact
    by_cases ho : s.regs .rax = Int64.minValue ∧ s.regs r = -1
    · rw [if_pos ho] at hout hact
      cases hout
      exact ⟨rfl, c, hact⟩
    · rw [if_neg ho] at hout hact
      cases hout
      exact ⟨rfl, rfl, rfl, _, hact, (h.set .rax _).set .rdx _⟩
  · cases hout

theorem execute_compare (h : Mirrors prog s c) (hs : s.Fits) (src : Src) (r : Reg) :
    ∃ junk, ∀ out, (Op.compare src r).run prog junk s host = some out →
      Carried prog (Act.execute .cmpq [src.arg, .register r.register]) c s host out := by
  obtain ⟨word, hword⟩ := h.read hs src
  refine ⟨⟨word, none⟩, Carried.reading (hword none) (.bind _ _ c) ?_⟩
  intro w out hout
  cases hout
  refine ⟨rfl, rfl, rfl, { c with flags := some (c.get r.register, w) }, rfl, ?_⟩
  rw [h.reg r]
  exact ⟨h.reg, h.rbp, ⟨h.holds.rsp, h.holds.word⟩, rfl, h.returns⟩

theorem execute_select (h : Mirrors prog s c) (o : Order) (src r : Reg) (junk : Junk) (out : Outcome σ)
    (hout : (Op.select o src r).run prog junk s host = some out) :
    Carried prog (Act.execute o.opcode [.register src.register, .register r.register]) c s host out := by
  rw [Op.run] at hout
  split at hout
  · cases hout
  · next dst x hflags =>
    cases hout
    have hcond : Act.condition o.opcode c = .ok (o.holds dst x) c := by
      rw [Act.condition, h.flags, hflags, ← Order.holds_opcode]
    have hact : Act.execute o.opcode [.register src.register, .register r.register] c =
        (if o.holds dst x then Act.set r.register (c.get src.register) else pure ()) c := by
      have hexec : Act.execute o.opcode [.register src.register, .register r.register] =
          Act.condition o.opcode >>= fun b =>
            if b then (do
              let w ← Act.read (.register src.register)
              Act.write o.opcode (.register r.register) w)
            else pure () := by
        cases o <;> rfl
      rw [hexec, Act.bind_of_ok hcond]
      cases o.holds dst x <;> rfl
    cases hb : o.holds dst x with
    | false =>
      rw [hb] at hact
      exact ⟨rfl, rfl, rfl, c, hact, h⟩
    | true =>
      rw [hb] at hact
      refine ⟨rfl, rfl, rfl, _, hact, ?_⟩
      rw [h.reg src]
      exact h.set r _

/-- **The instruction of an operation on data carries the operation out.** -/
theorem execute (h : Mirrors prog s c) (hs : s.Fits) {o : Op} (ho : o.isData = true) (host : σ) :
    ∃ junk, ∀ out, o.run prog junk s host = some out →
      Carried prog (Act.execute o.opcode o.args) c s host out := by
  cases o with
  | push src k => exact h.execute_push hs src k
  | pop r => exact ⟨⟨.ok 0, none⟩, h.execute_pop r _⟩
  | move src r => exact h.execute_move hs src r
  | store r n => exact h.execute_store hs r n
  | peek r => exact ⟨⟨.ok 0, none⟩, h.execute_peek r _⟩
  | combine f src r => exact h.execute_combine hs f src r
  | negate r => exact ⟨⟨.ok 0, none⟩, h.execute_negate r _⟩
  | extend => exact ⟨⟨.ok 0, none⟩, h.execute_extend _⟩
  | divide r => exact ⟨⟨.ok 0, none⟩, h.execute_divide r _⟩
  | compare src r => exact h.execute_compare hs src r
  | select o src r => exact ⟨⟨.ok 0, none⟩, h.execute_select o src r _⟩
  | grow => exact ⟨⟨.ok 0, none⟩, h.execute_grow _⟩
  | shrink n => exact ⟨⟨.ok 0, none⟩, h.execute_shrink n _⟩
  | nop =>
    refine ⟨⟨.ok 0, none⟩, fun out hout => ?_⟩
    cases hout
    exact ⟨rfl, rfl, rfl, c, rfl, h⟩
  | jump j l => cases ho
  | exit => cases ho
  | call f => cases ho

end Mirrors

end

end MicroC
