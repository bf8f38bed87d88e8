import MicroC.Proofs.Routine.Adequate
import MicroC.Proofs.Routine.Safe

/-!
# Runs of routines

* `Leads`, `Finishes`: chains of steps that do not depend on words without a value.
* `Leads.runs`, `Finishes.halts`: the machine takes all steps of such a chain.
* `Running.halts_induction`: induction over the steps of a run that ends.
* **`halts_safely`**: on the machine a program that is in order fails only for the reasons that no check
  rules out.
* `Machine.run_of_halts`, `Machine.run_of_runs`: what a run from a routine comes to.
-/

namespace MicroC

open Convention Code

variable {σ : Type} [Host σ]

/-! ## Chains of steps -/

/-- A step that does not depend on words without a value. -/
def State.Surely (prog : List Subroutine) (s : State) (host : σ) (out : Outcome σ) : Prop :=
  ∀ junk, s.next prog junk host = some out

/-- Steps with a number of instructions lead from one state to another. -/
inductive Leads (prog : List Subroutine) : Nat → State → σ → State → σ → Prop
  | refl (s : State) (host : σ) : Leads prog 0 s host s host
  | step {n : Nat} {s t u : State} {host host' host'' : σ} (h : s.Surely prog host (.goes t host'))
      (ht : Leads prog n t host' u host'') : Leads prog (s.cost prog + n) s host u host''

/-- Steps with a number of instructions lead to an end. -/
inductive Finishes (prog : List Subroutine) : Nat → State → σ → Except MachineError Int64 → σ → Prop
  | halt {s : State} {host host' : σ} {w : Int64} (h : s.Surely prog host (.halts w host')) :
      Finishes prog (s.cost prog) s host (.ok w) host'
  | fail {s : State} {host host' : σ} {e : MachineError} (h : s.Surely prog host (.fails e host')) :
      Finishes prog (s.cost prog) s host (.error e) host'
  | step {n : Nat} {s t : State} {host host' host'' : σ} {res : Except MachineError Int64}
      (h : s.Surely prog host (.goes t host')) (ht : Finishes prog n t host' res host'') :
      Finishes prog (s.cost prog + n) s host res host''

variable {prog : List Subroutine} {s t u : State} {host host' host'' : σ} {m n : Nat}

theorem Leads.trans (h : Leads prog m s host t host') (h' : Leads prog n t host' u host'') :
    Leads prog (m + n) s host u host'' := by
  induction h with
  | refl => rwa [Nat.zero_add]
  | step hs _ ih =>
    rw [Nat.add_assoc]
    exact .step hs (ih h')

theorem Leads.ends {res : Except MachineError Int64} (h : Leads prog m s host t host')
    (h' : Finishes prog n t host' res host'') : Finishes prog (m + n) s host res host'' := by
  induction h with
  | refl => rwa [Nat.zero_add]
  | step hs _ ih =>
    rw [Nat.add_assoc]
    exact .step hs (ih h')

theorem Leads.one (h : s.Surely prog host (.goes t host')) :
    Leads prog (s.cost prog) s host t host' :=
  .step h (.refl t host')

/-! ## On the machine -/

variable {code : Code} {mode : Mode} {p : Point σ}

theorem Sound.depth_lt (h : Sound prog mode s) : s.depth + 1 < addressLimit := by
  obtain ⟨sh, -, hs, hd⟩ := h.shape
  have hlen := hs.words.length_eq
  have hlimit := hd.words
  have hctx := h.callers.depth
  simp only [State.depth, wordLimit, stackWords, addressLimit] at *
  omega

/-- A state that is in order, and where the machine is. -/
structure Running (prog : List Subroutine) (mode : Mode) (s : State) (p : Point σ) : Prop where
  sound : Sound prog mode s
  located : Located prog s
  represents : Represents prog s p

theorem Running.does (himp : code.Implements prog) (h : Running prog mode s p) :
    ∃ junk, ∀ out, s.next prog junk p.host = some out → Does code prog (s.cost prog) p out :=
  h.represents.next himp h.located h.sound.depth_lt

theorem Running.goes (hin : InOrder prog mode) (h : Running prog mode s p) {junk : Junk} {q : Point σ}
    (hnext : s.next prog junk p.host = some (.goes t q.host)) (hq : Represents prog t q) :
    Running prog mode t q := by
  obtain ⟨out, hout, hsafe⟩ := h.sound.next hin junk p.host
  rw [hnext] at hout
  cases hout
  exact ⟨hsafe, h.located.next hnext, hq⟩

theorem Leads.runs (himp : code.Implements prog) (hin : InOrder prog mode)
    (hl : Leads prog n s host t host') (h : Running prog mode s p) (hp : p.host = host) :
    ∃ q, code.Runs n p q ∧ Running prog mode t q ∧ q.host = host' := by
  induction hl generalizing p with
  | refl s host => exact ⟨p, .refl p, h, hp⟩
  | step hs _ ih =>
    subst hp
    obtain ⟨junk, hdoes⟩ := h.does himp
    obtain ⟨q, hq, hrep, rfl⟩ := hdoes _ (hs junk)
    obtain ⟨x, hx, hx'⟩ := ih (h.goes hin (hs junk) hrep) rfl
    exact ⟨x, hq.trans hx, hx'⟩

theorem Finishes.halts (himp : code.Implements prog) (hin : InOrder prog mode)
    {res : Except MachineError Int64} (he : Finishes prog n s host res host') (h : Running prog mode s p)
    (hp : p.host = host) : ∃ k cpu, k ≤ n ∧ code.Halts k p ⟨res, cpu, host'⟩ := by
  induction he generalizing p with
  | halt hs =>
    subst hp
    obtain ⟨junk, hdoes⟩ := h.does himp
    obtain ⟨cpu, hcpu⟩ := hdoes _ (hs junk)
    exact ⟨_, cpu, Nat.le_refl _, hcpu⟩
  | fail hs =>
    subst hp
    obtain ⟨junk, hdoes⟩ := h.does himp
    exact hdoes _ (hs junk)
  | step hs _ ih =>
    subst hp
    obtain ⟨junk, hdoes⟩ := h.does himp
    obtain ⟨q, hq, hrep, rfl⟩ := hdoes _ (hs junk)
    obtain ⟨k, cpu, hk, hcpu⟩ := ih (h.goes hin (hs junk) hrep) rfl
    exact ⟨_, cpu, Nat.add_le_add_left hk _, hq.halts hcpu⟩

theorem cost_pos_or_rest (s : State) :
    0 < s.cost prog ∨ ∃ l ks k, s.rest = .label l ks :: k := by
  unfold State.cost
  split
  · exact .inl (by simp)
  · next l ks k hrest => exact .inr ⟨l, ks, k, hrest⟩
  · exact .inl (by split <;> omega)
  · exact .inl (by omega)

theorem next_label {l : String} {ks : List Kind} {k : List Item} {junk : Junk} {out : Outcome σ}
    (hrest : s.rest = .label l ks :: k) (h : s.next prog junk host = some out) :
    out = .goes { s with rest := k } host := by
  rw [State.next, hrest] at h
  exact (Option.some.inj h).symm

/-- How a run on the machine ends is told by its last step; what one step says of what comes before is said
of all steps. -/
theorem Running.halts_induction (himp : code.Implements prog) (hin : InOrder prog mode) {f : Halt σ}
    {motive : Nat → State → Point σ → Prop}
    (halt : ∀ s p junk w, Running prog mode s p → f.result = .ok w →
      s.next prog junk p.host = some (.halts w f.host) → motive (s.cost prog) s p)
    (fail : ∀ n s p junk e, Running prog mode s p → f.result = .error e → 0 < n → n ≤ s.cost prog →
      s.next prog junk p.host = some (.fails e f.host) → motive n s p)
    (step : ∀ n s p t q junk, Running prog mode s p → Running prog mode t q →
      s.next prog junk p.host = some (.goes t q.host) → motive n t q → motive (s.cost prog + n) s p)
    (h : Running prog mode s p) (hf : code.Halts n p f) : motive n s p := by
  -- Steps take time, but for labels, of which only a few stand in a row.
  induction hn : n using Nat.strongRecOn generalizing n s p with
  | ind n ihn =>
  induction hk : s.rest.length using Nat.strongRecOn generalizing s p with
  | ind len ihk =>
  subst hn hk
  obtain ⟨junk, hdoes⟩ := h.does himp
  obtain ⟨out, hout, -⟩ := h.sound.next hin junk p.host
  have hd := hdoes out hout
  cases out with
  | halts w host' =>
    obtain ⟨cpu, hcpu⟩ := hd
    obtain ⟨rfl, rfl⟩ := hf.unique hcpu
    exact halt s p junk w h rfl hout
  | fails e host' =>
    obtain ⟨m, cpu, hm, hcpu⟩ := hd
    obtain ⟨rfl, rfl⟩ := hf.unique hcpu
    refine fail n s p junk e h rfl ?_ hm hout
    cases n with
    | zero => exact hf.elim
    | succ n => exact n.succ_pos
  | goes t host' =>
    obtain ⟨q, hq, hrep, rfl⟩ := hd
    have hrun := h.goes hin hout hrep
    obtain ⟨hlt, hf'⟩ := hf.after hq
    have hsum : n = s.cost prog + (n - s.cost prog) := by omega
    rw [hsum]
    refine step _ s p t q junk h hrun hout ?_
    rcases @cost_pos_or_rest prog s with hpos | ⟨l, ks, k, hrest⟩
    · exact ihn (n - s.cost prog) (by omega) hrun hf' rfl
    · have hcost : s.cost prog = 0 := by
        rw [State.cost, hrest]
      have ht : t = { s with rest := k } := by
        injection next_label hrest hout
      subst ht
      rw [hcost, Nat.sub_zero] at hf' ⊢
      refine ihk k.length ?_ hrun hf' rfl
      rw [hrest, List.length_cons]
      omega

/-- **A program that is in order fails only for reasons that no check rules out.** -/
theorem halts_safely (himp : code.Implements prog) (hin : InOrder prog mode) {f : Halt σ}
    (h : Running prog mode s p) (hf : code.Halts n p f) {e : MachineError} (he : f.result = .error e) :
    mode.Allows e ∨ ∃ host : σ, (Host.read host).1 = .error e := by
  refine h.halts_induction (motive := fun _ _ _ => mode.Allows e ∨ ∃ host : σ, (Host.read host).1 = .error e)
    himp hin ?_ ?_ ?_ hf
  · intro s p junk w _ hw _
    rw [he] at hw
    cases hw
  · intro n s p junk e' h he' _ _ hnext
    rw [he] at he'
    cases he'
    obtain ⟨out, hout, hsafe⟩ := h.sound.next hin junk p.host
    rw [hnext] at hout
    cases hout
    exact hsafe
  · intro n s p t q junk _ _ _ ih
    exact ih

/-! ## From a routine on -/

/-- The state in front of the body of the outermost routine. -/
def outermost (r : Subroutine) : State := entryState r ⟨none, fun _ => 0, []⟩ [] none

variable {r : Subroutine}

theorem entered_of_push {stack : Stack} {d : Cpu}
    (hd : Act.push haltAddress (Cpu.start stack) = .ok () d) :
    Machine.entered stack = (.ok (), { d with returns := [haltAddress] }) := by
  unfold Machine.entered
  generalize Act.push haltAddress (Cpu.start stack) = x at hd
  subst hd
  rfl

/-- The processor in front of the first instruction. -/
theorem entering_outermost (prog : List Subroutine) (stack : Stack) :
    ∃ c, Machine.entered stack = (.ok (), c) ∧ Entering prog ⟨none, fun _ => 0, []⟩ [] none c := by
  have hstart : (Cpu.start stack).Holds [] := by
    refine ⟨?_, fun i w hi => by cases hi⟩
    rw [List.length_nil, addr_zero]
    exact Registers.get_set_self _ _ _
  obtain ⟨d, hd, hholds, halike⟩ := Act.push_of_lt hstart (by simp [stackWords]) haltAddress
  have hzero : ∀ q, q ≠ .rsp → d.get q = 0 := by
    intro q hq
    rw [halike.reg q hq]
    show (Registers.zero.set .rsp _).get q = 0
    rw [Registers.get_set_of_ne _ hq, Registers.get_zero]
  exact ⟨_, entered_of_push hd, fun q => hzero _ q.ne_rsp, hzero _ (by decide),
    ⟨hholds.rsp, hholds.word⟩, halike.flags, rfl⟩

theorem running_outermost (himp : code.Implements prog) (hin : InOrder prog mode) (hr : r ∈ prog)
    (hguard : mode.guarded = true → r.arity ≤ argumentRegisters.length) (stack : Stack) (host : σ) :
    ∃ c p, Machine.entered stack = (.ok (), c) ∧
      code.Runs entryWidth ⟨start prog r.name, c, host⟩ p ∧ Running prog mode (outermost r) p ∧
      p.host = host := by
  obtain ⟨c, hc, hent⟩ := entering_outermost prog stack
  have hroom : contextDepth [⟨none, fun _ => 0, []⟩] ≤ stackWords := by
    simp [contextDepth, linkWords, stackWords]
  obtain ⟨d, hd, hm⟩ := hent.enter himp hr hroom host
  refine ⟨c, _, hc, hd, ⟨⟨hr, ?_, .outermost hguard _⟩, ⟨hr, List.suffix_refl _, .outermost _⟩, rfl, hm⟩,
    rfl⟩
  refine ⟨_, hin.check r hr, .fresh .nil, ?_, Nat.zero_le _⟩
  simpa [State.depth, outermost, entryState] using Nat.le_add_right_of_le hroom

/-- **What a run from a routine comes to** is told by its chain behind the code that sets up the frame. -/
theorem Machine.run_outermost (himp : code.Implements prog) (hin : InOrder prog mode) (hr : r ∈ prog)
    (hguard : mode.guarded = true → r.arity ≤ argumentRegisters.length) (stack : Stack) (host : σ)
    (limit steps : Nat) :
    ∃ p, Running prog mode (outermost r) p ∧ p.host = host ∧
      (∀ n f, code.Halts n p f → entryWidth + n ≤ limit →
        (Machine.mk code stack host limit steps).run r.name =
          (f.result, ⟨code, f.cpu.stack, f.host, limit, entryWidth + n⟩)) ∧
      ∀ n q, code.Runs n p q → limit ≤ entryWidth + n →
        ((Machine.mk code stack host limit steps).run r.name).1 = .error (.stepLimitExceeded limit) := by
  obtain ⟨c, p, hc, hrun, hp, hhost⟩ := running_outermost himp hin hr hguard stack host
  have heq : (Machine.mk code stack host limit steps).run r.name =
      let f := runFrom code limit limit (start prog r.name) c host
      (f.result, ⟨code, f.cpu.stack, f.host, limit, f.steps⟩) := by
    rw [Machine.run]
    dsimp only
    rw [himp.labels r hr]
    dsimp only
    rw [hc]
  refine ⟨p, hp, hhost, ?_, ?_⟩
  · intro n f hf hn
    have hfrom := runFrom_of_halts (hrun.halts hf) hn (Nat.le_refl limit)
    rw [heq, hfrom, Nat.sub_self, Nat.zero_add]
  · intro n q hq hn
    obtain ⟨x, hx⟩ := (hrun.trans hq).take hn
    have hfrom : runFrom code limit limit (start prog r.name) c host = _ := runFrom_of_runs hx
    rw [heq, hfrom]

end MicroC
