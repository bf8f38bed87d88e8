import MicroC.Proofs.Routine.Inversion
import MicroC.Proofs.Routine.Link

/-!
# Routines on the machine

The machine does what the states of routines say, step by step and with the same number of instructions.

* `Located`: a state is at a place of its routine, and its callers are in order.
* `Represents`: the machine is where a state says.
* **`Represents.next`**: one step of a state on the machine.
-/

namespace MicroC

open Convention Code

variable {σ : Type} [Host σ] {code : Code} {prog : List Subroutine} {s t : State} {c d : Cpu}

/-- A state is at a place of its routine, and its callers are in order. -/
structure Located (prog : List Subroutine) (s : State) : Prop where
  routine : s.routine ∈ prog
  rest : s.rest <:+ s.routine.body
  linked : Linked prog s.callers

/-- The machine is where a state says. -/
structure Represents (prog : List Subroutine) (s : State) (p : Point σ) : Prop where
  pc : p.pc = pcOf prog s.routine s.rest
  mirrors : Mirrors prog s p.cpu

/-- The machine comes to an outcome in a number of steps. It may notice an error earlier. -/
def Does (code : Code) (prog : List Subroutine) (n : Nat) (p : Point σ) : Outcome σ → Prop
  | .goes t host => ∃ q, code.Runs n p q ∧ Represents prog t q ∧ q.host = host
  | .halts w host => ∃ cpu, code.Halts n p ⟨.ok w, cpu, host⟩
  | .fails e host => ∃ m cpu, m ≤ n ∧ code.Halts m p ⟨.error e, cpu, host⟩

theorem Located.fits (himp : code.Implements prog) (hl : Located prog s)
    (hd : s.depth + 1 < addressLimit) : s.Fits where
  called := hl.linked.ne_nil
  depth := hd
  arity := himp.arity _ hl.routine
  outermost a cs hs ha := by
    have hlinked := hl.linked
    rw [hs] at hlinked
    exact hlinked.outermost_of_none ha

/-! ## Where a step leads -/

/-- A step stays in order. -/
theorem Located.next {junk : Junk} {host host' : σ} (hl : Located prog s)
    (hnext : s.next prog junk host = some (.goes t host')) : Located prog t := by
  unfold State.next at hnext
  split at hnext
  · unfold State.leave at hnext
    split at hnext
    · cases hnext
    · next c cs hcs =>
      have hlinked := hl.linked
      rw [hcs] at hlinked
      cases hlinked with
      | outermost regs => cases hnext
      | call hr hk hw h =>
        cases hnext
        exact ⟨hr, hk, h⟩
  · next l ks k hrest =>
    cases hnext
    exact ⟨hl.routine, (List.suffix_cons _ _).trans (hrest ▸ hl.rest), hl.linked⟩
  · next o k hrest =>
    have hk : k <:+ s.routine.body := (List.suffix_cons _ _).trans (hrest ▸ hl.rest)
    cases o with
    | jump j l =>
      rw [Op.run] at hnext
      split at hnext
      · cases hnext
      · cases hnext
        exact ⟨hl.routine, hk, hl.linked⟩
      · obtain ⟨k', hk', heq⟩ := Option.map_eq_some_iff.1 hnext
        cases heq
        exact ⟨hl.routine, behind_suffix hk', hl.linked⟩
    | exit =>
      cases hnext
      exact ⟨hl.routine, List.nil_suffix, hl.linked⟩
    | call f =>
      rw [Op.run] at hnext
      split at hnext
      · next heven =>
        rcases State.call_goes hnext with ⟨r, hr, -, -, rfl⟩ | ⟨-, i, args, w, -, -, -, rfl⟩
        · exact ⟨(find?_mem hr).1, List.suffix_refl _, .call hl.routine hk heven hl.linked⟩
        · exact ⟨hl.routine, hk, hl.linked⟩
      · cases hnext
    | _ =>
      obtain ⟨hp, -⟩ := Op.samePlace rfl hnext
      refine ⟨hp.routine ▸ hl.routine, ?_, hp.callers ▸ hl.linked⟩
      rw [hp.rest, hp.routine]
      exact hk

/-! ## One step -/

variable {p : Point σ} {k : List Item}

/-- No step depends on this. -/
def Junk.none : Junk := ⟨.ok 0, .none⟩

theorem Jump.jump_of_taken {j : Jump} {b : Bool} (h : j.taken? c.flags = some b) (address : Nat) :
    Act.jump j.opcode [address] c = .ok (if b then .goto address else .advance) c := by
  have hcondition : ∀ opcode : Opcode, opcode ≠ .jmp → Act.condition opcode c = .ok b c →
      Act.jump opcode [address] c = .ok (if b then .goto address else .advance) c := by
    intro opcode ho hc
    rw [Act.jump]
    dsimp only
    rw [if_neg ho, Act.bind_of_ok hc]
    cases b <;> rfl
  cases j with
  | always =>
    cases h
    rfl
  | unequal =>
    obtain ⟨f, hf, rfl⟩ := Option.map_eq_some_iff.1 h
    refine hcondition .jne (by decide) ?_
    rw [Act.condition, hf]
    rfl
  | atMost =>
    obtain ⟨f, hf, rfl⟩ := Option.map_eq_some_iff.1 h
    refine hcondition .jle (by decide) ?_
    rw [Act.condition, hf]
    rfl

namespace Represents

theorem leave (himp : code.Implements prog) (hl : Located prog s) (h : Represents prog s p)
    (hrest : s.rest = []) (out : Outcome σ) (hout : s.leave p.host = some out) :
    Does code prog (linkWords + 1) p out := by
  have hp : p = ⟨pcOf prog s.routine [], p.cpu, p.host⟩ := by
    rw [← hrest, ← h.pc]
  have hlinked := hl.linked
  unfold State.leave at hout
  split at hout
  · cases hout
  · next a cs hs =>
    rw [hs] at hlinked
    split at hout
    · next hb =>
      cases hout
      rw [hp]
      exact h.mirrors.leave_halt himp hl.routine hs hb p.host
    · next q k hb =>
      cases hout
      have hq : q ∈ prog := by
        cases hlinked with
        | outermost regs => cases hb
        | call hr hk hw h =>
          cases hb
          exact hr
      obtain ⟨d, hd, hm⟩ := h.mirrors.leave_back himp hl.routine hs hb hq p.host
      rw [hp]
      exact ⟨_, hd, ⟨rfl, hm⟩, rfl⟩

theorem data (himp : code.Implements prog) (hl : Located prog s) (hs : s.Fits) (h : Represents prog s p)
    {o : Op} (hrest : s.rest = .op o :: k) (ho : o.isData = true) :
    ∃ junk, ∀ out, o.run prog junk { s with rest := k } p.host = some out → Does code prog 1 p out := by
  have hk : .op o :: k <:+ s.routine.body := hrest ▸ hl.rest
  have hcell : code.cells[p.pc]? = some (.data o.opcode o.args) := by
    have := himp.cell_of_op hl.routine hk
    rw [h.pc, hrest, this, Op.cell_of_isData prog _ ho]
  have hnext := Point.next_of_data hcell o.opcode_ne_retq
  have hs' : ({ s with rest := k } : State).Fits := ⟨hs.called, hs.depth, hs.arity, hs.outermost⟩
  obtain ⟨junk, hjunk⟩ := (h.mirrors.at k).execute hs' ho p.host
  refine ⟨junk, fun out hout => ?_⟩
  have hcarried := hjunk out hout
  cases out with
  | goes t host' =>
    obtain ⟨hhost, hroutine, hrest', d, hd, hm⟩ := hcarried
    rw [hd] at hnext
    refine ⟨⟨p.pc + 1, d, p.host⟩, .one hnext, ⟨?_, hm⟩, hhost.symm⟩
    rw [hroutine, hrest', h.pc, hrest]
    exact place_succ hk
  | halts w host' => exact hcarried.elim
  | fails e host' =>
    obtain ⟨hhost, d, hd⟩ := hcarried
    rw [hd] at hnext
    exact ⟨1, d, Nat.le_refl 1, .one (hhost ▸ hnext)⟩

theorem jump (himp : code.Implements prog) (hl : Located prog s) (h : Represents prog s p) {j : Jump}
    {l : String} (hrest : s.rest = .op (.jump j l) :: k) (junk : Junk) (out : Outcome σ)
    (hout : (Op.jump j l).run prog junk { s with rest := k } p.host = some out) :
    Does code prog 1 p out := by
  have hk : .op (.jump j l) :: k <:+ s.routine.body := hrest ▸ hl.rest
  have hcell : code.cells[p.pc]? =
      some (.jump j.opcode [pcOf prog s.routine ((behind l s.routine.body).getD [])]) := by
    have := himp.cell_of_op hl.routine hk
    rw [h.pc, hrest, this]
    rfl
  have hnext := Point.next_of_cell hcell
  rw [show step p.pc (.jump j.opcode [pcOf prog s.routine ((behind l s.routine.body).getD [])]) p.cpu
    p.host = (Act.jump j.opcode _).step p.cpu p.host from rfl, Act.step] at hnext
  rw [Op.run] at hout
  split at hout
  · cases hout
  · next hb =>
    cases hout
    rw [Jump.jump_of_taken (by rw [h.mirrors.flags]; exact hb)] at hnext
    refine ⟨⟨p.pc + 1, p.cpu, p.host⟩, .one hnext, ⟨?_, h.mirrors.at k⟩, rfl⟩
    rw [h.pc, hrest]
    exact place_succ hk
  · next hb =>
    obtain ⟨k', hk', heq⟩ := Option.map_eq_some_iff.1 hout
    cases heq
    rw [Jump.jump_of_taken (by rw [h.mirrors.flags]; exact hb), show behind l s.routine.body = some k' from hk'] at hnext
    exact ⟨⟨pcOf prog s.routine k', p.cpu, p.host⟩, .one hnext, ⟨rfl, h.mirrors.at k'⟩, rfl⟩

theorem exit (himp : code.Implements prog) (hl : Located prog s) (h : Represents prog s p)
    (hrest : s.rest = .op .exit :: k) (junk : Junk) (out : Outcome σ)
    (hout : Op.exit.run prog junk { s with rest := k } p.host = some out) : Does code prog 1 p out := by
  have hcell : code.cells[p.pc]? = some (.jump .jmp [pcOf prog s.routine []]) := by
    have := himp.cell_of_op hl.routine (hrest ▸ hl.rest)
    rw [h.pc, hrest, this]
    rfl
  cases hout
  refine ⟨⟨pcOf prog s.routine [], p.cpu, p.host⟩, .one ?_, ⟨rfl, h.mirrors.at []⟩, rfl⟩
  rw [Point.next_of_cell hcell]
  rfl

theorem aligned (hl : Located prog s) (hs : s.depth + 1 < addressLimit) (h : Mirrors prog s c)
    (heven : s.words.length % 2 = 0) (f : String) : Act.checkAlignment f c = .ok () c := by
  have hdepth : s.depth % 2 = 0 := by
    have := hl.linked.even
    rw [State.depth]
    omega
  have hrsp : c.rsp = (addr s.depth).toUInt64.toNat := by
    rw [Cpu.rsp, h.holds.rsp, Mirrors.length_stack]
  rw [Act.checkAlignment, hrsp, if_pos (addr_aligned (by omega) hdepth)]

/-- A call of a routine with room for the return address. -/
theorem entering (hl : Located prog s) (hs : s.depth + 1 < addressLimit) (h : Mirrors prog s c)
    (heven : s.words.length % 2 = 0) (hroom : s.depth < stackWords) (f : String) (address pc : Nat)
    (hpc : pc + 1 = pcOf prog s.routine k) :
    ∃ d, Act.enter f address pc c = .ok (.goto address) d ∧
      Entering prog ⟨some (s.routine, k), s.regs, s.words⟩ s.callers s.flags d := by
  obtain ⟨d, hd, hholds, halike⟩ := Act.push_of_lt h.holds (by rwa [Mirrors.length_stack])
    (Int64.ofNat (pc + 1))
  have haddr : Caller.address prog ⟨some (s.routine, k), s.regs, s.words⟩ = Int64.ofNat (pc + 1) := by
    rw [hpc]
    rfl
  refine ⟨{ d with returns := Int64.ofNat (pc + 1) :: d.returns }, ?_, ?_⟩
  · rw [Act.enter, Act.bind_of_ok (aligned hl hs h heven f), Act.bind_of_ok hd]
    rfl
  · refine ⟨fun q => (halike.reg _ q.ne_rsp).trans (h.reg q),
      (halike.reg _ (by decide)).trans h.rbp, ⟨?_, ?_⟩, halike.flags.trans h.flags, ?_⟩
    · exact hholds.rsp
    · intro i w hi
      rw [haddr] at hi
      exact hholds.word i w hi
    · rw [List.map_cons, haddr, ← h.returns, ← halike.returns]

theorem next_call (himp : code.Implements prog) (hl : Located prog s) (h : Represents prog s p) {f : String}
    {r : Subroutine} (hrest : s.rest = .op (.call f) :: k) (hf : prog.find? (·.name == f) = some r) :
    p.next code =
      (match Act.enter f (start prog f) p.pc p.cpu with
        | .ok (.goto pc) d => .ok ⟨pc, d, p.host⟩
        | .ok .advance d => .ok ⟨p.pc + 1, d, p.host⟩
        | .ok (.halt w) d => .error ⟨.ok w, d, p.host⟩
        | .error e d => .error ⟨.error e, d, p.host⟩) ∧
      p.pc + 1 = pcOf prog s.routine k := by
  have hk : .op (.call f) :: k <:+ s.routine.body := hrest ▸ hl.rest
  have hcell : code.cells[p.pc]? = some (.call [.label f (start prog f)]) := by
    have := himp.cell_of_op hl.routine hk
    rw [h.pc, hrest, this]
    simp [Op.cell, hf]
  refine ⟨?_, ?_⟩
  · rw [Point.next_of_cell hcell, show step p.pc (.call [.label f (start prog f)]) p.cpu p.host =
      (Act.enter f (start prog f) p.pc).step p.cpu p.host from rfl, Act.step]
    cases Act.enter f (start prog f) p.pc p.cpu with
    | error e d => rfl
    | ok n d => cases n <;> rfl
  · rw [h.pc, hrest]
    exact place_succ hk

/-- A call of a routine without room for its frame fails at the first push that finds none. -/
theorem call_overflow (himp : code.Implements prog) (hl : Located prog s)
    (hs : s.depth + 1 < addressLimit) (h : Represents prog s p) {f : String} {r : Subroutine}
    (hrest : s.rest = .op (.call f) :: k) (hf : prog.find? (·.name == f) = some r)
    (heven : s.words.length % 2 = 0) (hfull : stackWords < s.depth + linkWords) :
    ∃ cpu, code.Halts (overflowSteps s.depth) p ⟨.error (overflowError s.depth), cpu, p.host⟩ := by
  obtain ⟨hr, hname⟩ := find?_mem hf
  obtain ⟨hnext, hpc⟩ := h.next_call himp hl hrest hf
  by_cases hroom : s.depth < stackWords
  · obtain ⟨d, hd, hent⟩ := entering hl hs h.mirrors heven hroom f (start prog f) p.pc hpc
    rw [hd, ← hname] at hnext
    have hdepth : contextDepth (⟨some (s.routine, k), s.regs, s.words⟩ :: s.callers) =
        s.depth + linkWords := by
      simp only [contextDepth, State.depth]
      omega
    obtain ⟨e, he⟩ := hent.overflow himp hr (by rwa [Mirrors.length_stack]) (by rwa [hdepth]) p.host
    rw [Mirrors.length_stack] at he
    rw [overflowError_of_le (Nat.le_trans (Nat.le_of_lt hroom) (Nat.le_add_right _ _))]
    exact ⟨e, .inr ⟨_, hnext, he⟩⟩
  · have hge : stackWords ≤ s.depth := Nat.le_of_not_lt hroom
    have henter : Act.enter f (start prog f) p.pc p.cpu = .error (overflowError s.depth) p.cpu := by
      rw [Act.enter, Act.bind_of_ok (aligned hl hs h.mirrors heven f)]
      exact Act.bind_of_error (h.mirrors.push_overflow hs hge _) _
    rw [henter] at hnext
    rw [overflowSteps, Nat.sub_eq_zero_of_le hge]
    exact ⟨p.cpu, .one hnext⟩

theorem call_routine (himp : code.Implements prog) (hl : Located prog s)
    (hs : s.depth + 1 < addressLimit) (h : Represents prog s p) {f : String} {r : Subroutine}
    (hrest : s.rest = .op (.call f) :: k) (hf : prog.find? (·.name == f) = some r)
    (heven : s.words.length % 2 = 0) :
    ∃ junk, ∀ out, ({ s with rest := k } : State).call prog junk f p.host = some out →
      Does code prog (linkWords + 1) p out := by
  obtain ⟨hr, hname⟩ := find?_mem hf
  obtain ⟨hnext, hpc⟩ := h.next_call himp hl hrest hf
  obtain ⟨far, hfar⟩ := exists_far { s with rest := k }
  refine ⟨⟨.ok 0, far⟩, fun out hout => ?_⟩
  rw [State.call, hf] at hout
  dsimp only at hout
  by_cases hfits : s.depth + linkWords ≤ stackWords
  · rw [if_pos (show State.depth { s with rest := k } + linkWords ≤ stackWords from hfits)] at hout
    cases hout
    have hroom : s.depth < stackWords := Nat.lt_of_lt_of_le (by simp [linkWords]) hfits
    obtain ⟨d, hd, hent⟩ := entering hl hs h.mirrors heven hroom f (start prog f) p.pc hpc
    rw [hd, ← hname] at hnext
    have hdepth : contextDepth (⟨some (s.routine, k), s.regs, s.words⟩ :: s.callers) =
        s.depth + linkWords := by
      simp only [contextDepth, State.depth]
      omega
    obtain ⟨e, he, hm⟩ := hent.enter himp hr (by rwa [hdepth]) p.host
    exact ⟨⟨pcOf prog r r.body, e, p.host⟩, ⟨_, hnext, he⟩, ⟨rfl, hm⟩, rfl⟩
  · rw [if_neg (show ¬ State.depth { s with rest := k } + linkWords ≤ stackWords from hfits), hfar] at hout
    cases hout
    have hfull : stackWords < s.depth + linkWords := Nat.lt_of_not_le hfits
    obtain ⟨cpu, hcpu⟩ := h.call_overflow himp hl hs hrest hf heven hfull
    exact ⟨_, cpu, by rw [overflowSteps]; omega, hcpu⟩

/-! ## Calls of the host -/

theorem load_top (h : Mirrors prog s c) {i : Nat} {u v : Int64} (htop : s.words[0]? = some (some u))
    (hv : s.words[i]? = some (some v)) :
    Act.load ((c.get .rsp).toUInt64.toNat + i * wordSize) c = .ok v c := by
  have hunder : ∀ j w, s.words[j]? = some (some w) →
      under (s.words ++ context prog s.callers) (s.depth - 1 - j) = some (some w) := by
    intro j w hw
    obtain ⟨hj, -⟩ := List.getElem?_eq_some_iff.1 hw
    have hdepth : s.depth = s.words.length + contextDepth s.callers := rfl
    rw [under_append, length_context, if_neg (by omega), under, List.getElem?_reverse (by omega), ← hw]
    congr 1
    omega
  obtain ⟨hlt, -⟩ := h.holds.word _ u (hunder 0 u htop)
  obtain ⟨hi, -⟩ := List.getElem?_eq_some_iff.1 hv
  have hdepth : s.depth = s.words.length + contextDepth s.callers := rfl
  have haddr : (c.get .rsp).toUInt64.toNat + i * wordSize = (addr (s.depth - 1 - i + 1)).toUInt64.toNat := by
    rw [h.holds.rsp, Mirrors.length_stack, toNat_addr, toNat_addr]
    · simp only [wordSize, stackTop, stackWords] at *
      omega
    · simp only [wordSize, stackTop, stackWords] at *
      omega
    · simp only [wordSize, stackTop, stackWords] at *
      omega
  rw [haddr]
  exact Act.load_of_under h.holds (hunder i v hv)

theorem argument_eq (h : Mirrors prog s c) {n : Nat} {args : List Int64}
    (hargs : s.arguments n = some args) {i : Nat} {v : Int64} (hv : args[i]? = some v) :
    Act.argument i c = .ok v c := by
  obtain ⟨vs, hvs, rfl⟩ := Option.map_eq_some_iff.1 hargs
  obtain ⟨hlen, hval⟩ := topValues_spec hvs
  have htake : (Reg.arguments.take n).length = min n 6 := List.length_take
  have hin : i < n := by
    obtain ⟨hi, -⟩ := List.getElem?_eq_some_iff.1 hv
    rw [List.length_append, List.length_map, htake, hlen, stackArguments] at hi
    simp only [argumentRegisters, List.length_cons, List.length_nil] at hi
    omega
  by_cases hi : i < 6
  · -- Such an argument is in a register.
    rw [List.getElem?_append_left (by rw [List.length_map, htake]; omega), List.getElem?_map,
      List.getElem?_take_of_lt hin] at hv
    obtain ⟨r, hr, rfl⟩ := Option.map_eq_some_iff.1 hv
    rw [← h.reg r]
    have hcases : i = 0 ∨ i = 1 ∨ i = 2 ∨ i = 3 ∨ i = 4 ∨ i = 5 := by omega
    rcases hcases with rfl | rfl | rfl | rfl | rfl | rfl
    all_goals
      cases hr
      rfl
  · rw [List.getElem?_append_right (by rw [List.length_map, htake]; omega), List.length_map,
      htake] at hv
    have hsub : i - min n 6 = i - 6 := by omega
    rw [hsub] at hv
    have hreg : argumentRegisters[i]? = none := List.getElem?_eq_none (by
      simp only [argumentRegisters, List.length_cons, List.length_nil]
      omega)
    have hload : Act.argument i c = Act.load ((c.get .rsp).toUInt64.toNat + (i - 6) * wordSize) c := by
      rw [Act.argument, hreg]
      rfl
    rw [hload]
    have hpos : 0 < vs.length := by
      obtain ⟨hlt, -⟩ := List.getElem?_eq_some_iff.1 hv
      omega
    exact load_top h (hval 0 _ (List.getElem?_eq_getElem hpos)) (hval _ v hv)

theorem argumentsFrom_of_argument {args : List Int64}
    (h : ∀ (i : Nat) v, args[i]? = some v → Act.argument i c = .ok v c) (m i : Nat) (him : i + m = args.length) :
    Act.argumentsFrom i m c = .ok (args.drop i) c := by
  induction m generalizing i with
  | zero =>
    rw [List.drop_eq_nil_of_le (by omega)]
    rfl
  | succ m ih =>
    have hlt : i < args.length := by omega
    have hi := h i _ (List.getElem?_eq_getElem hlt)
    rw [Act.argumentsFrom, Act.bind_of_ok hi, Act.bind_of_ok (ih (i + 1) (by omega)),
      List.drop_eq_getElem_cons hlt]
    rfl

theorem argumentsFrom_eq (h : Mirrors prog s c) {n : Nat} {args : List Int64}
    (hargs : s.arguments n = some args) : Act.argumentsFrom 0 n c = .ok args c :=
  argumentsFrom_of_argument (fun _ _ => argument_eq h hargs) n 0 (by rw [length_arguments hargs, Nat.zero_add])

theorem call_host (himp : code.Implements prog) (hl : Located prog s)
    (hs : s.depth + 1 < addressLimit) (h : Represents prog s p) {f : String}
    (hrest : s.rest = .op (.call f) :: k) (hf : prog.find? (·.name == f) = none)
    (heven : s.words.length % 2 = 0) (junk : Junk) (out : Outcome σ)
    (hout : ({ s with rest := k } : State).call prog junk f p.host = some out) :
    Does code prog 1 p out := by
  have hk : .op (.call f) :: k <:+ s.routine.body := hrest ▸ hl.rest
  have hcell : code.cells[p.pc]? = some (.call [.symbol f]) := by
    have := himp.cell_of_op hl.routine hk
    rw [h.pc, hrest, this]
    simp [Op.cell, hf]
  have hpc : p.pc + 1 = pcOf prog s.routine k := by
    rw [h.pc, hrest]
    exact place_succ hk
  have hnext := Point.next_of_cell hcell
  rw [show step p.pc (.call [.symbol f]) p.cpu p.host = callHost f p.cpu p.host from rfl,
    callHost] at hnext
  rw [State.call, hf] at hout
  dsimp only at hout
  split at hout
  · cases hout
  · next i hi =>
    split at hout
    · cases hout
    · next args hargs =>
      have hargs' : s.arguments i.arity = some args := hargs
      have hprepare : Act.prepare f (Runtime.arity f p.host) p.cpu = .ok args p.cpu := by
        rw [show Runtime.arity f p.host = some i.arity from congrArg (Option.map _) hi, Act.prepare,
          Act.bind_of_ok (aligned hl hs h.mirrors heven f), argumentsFrom_eq h.mirrors hargs']
      have hruntime : Runtime.call f args p.host = i.call args p.host := by
        show Intrinsic.callNamed f args p.host = _
        rw [Intrinsic.callNamed, hi]
      rw [hprepare] at hnext
      dsimp only at hnext
      rw [hruntime] at hnext
      split at hout
      · next w host' hcall =>
        cases hout
        rw [hcall] at hnext
        exact ⟨⟨p.pc + 1, p.cpu.set .rax w, host'⟩, .one hnext,
          ⟨hpc, (h.mirrors.at k).set .rax w⟩, rfl⟩
      · next e host' hcall =>
        cases hout
        rw [hcall] at hnext
        exact ⟨1, p.cpu, Nat.le_refl 1, .one hnext⟩

/-- **The machine takes the step of a state.** -/
theorem next (himp : code.Implements prog) (hl : Located prog s) (hs : s.depth + 1 < addressLimit)
    (h : Represents prog s p) :
    ∃ junk, ∀ out, s.next prog junk p.host = some out → Does code prog (s.cost prog) p out := by
  unfold State.next State.cost
  cases hrest : s.rest with
  | nil => exact ⟨.none, h.leave himp hl hrest⟩
  | cons i k =>
    cases i with
    | label l ks =>
      refine ⟨.none, fun out hout => ?_⟩
      cases hout
      refine ⟨p, .refl p, ⟨?_, h.mirrors.at k⟩, rfl⟩
      rw [h.pc, hrest, place_label]
    | op o =>
      cases o with
      | jump j l => exact ⟨.none, h.jump himp hl hrest _⟩
      | exit => exact ⟨.none, h.exit himp hl hrest _⟩
      | call f =>
        dsimp only
        by_cases heven : s.words.length % 2 = 0
        · simp only [Op.run, if_pos heven]
          cases hf : prog.find? (·.name == f) with
          | some r => exact h.call_routine himp hl hs hrest hf heven
          | none => exact ⟨.none, h.call_host himp hl hs hrest hf heven _⟩
        · refine ⟨.none, fun out hout => ?_⟩
          simp only [Op.run, if_neg heven] at hout
          cases hout
      | _ => exact h.data himp hl (hl.fits himp hs) hrest rfl

end Represents

end MicroC
