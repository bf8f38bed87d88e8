import MicroC.Proofs.Compilation.Runs
import MicroC.Proofs.Emission.Completions
import MicroC.Proofs.Routine.Frames
import MicroC.Proofs.Semantics.Bounds

/-!
# Compiled programs compute what they mean

An evaluation has two bounds: on the rounds of its loops, and on the calls inside one another. The stack has to hold a
frame for each of the latter.

* `Program.callsMeet`: calls on the machine and calls of a program.
* `Meets.finishes`, `Meets.result_of_halts`: what the evaluation of `main` has to do with its steps, both ways.
* `lt_frames_of_spills`: the stack only runs over when it is too small for the frames of an evaluation.
* **`compiled_run_evaluates`**: runs on the machine and evaluations of a program.
-/

namespace MicroC

open Convention Code

section Calls

variable {σ : Type} [Host σ] {prog : List Subroutine} {c : Meaning} {most n n' : Nat} {s t : State} {host : σ}

theorem ProgramCode.finds {fs : List Func} {rs : List Subroutine} (h : ProgramCode c n fs rs n') (name : String) :
    fs.find? (·.name.name == name) = none ∧ rs.find? (·.name == name) = none ∨
      ∃ f r k k', fs.find? (·.name.name == name) = some f ∧ rs.find? (·.name == name) = some r ∧
        RoutineCode c k f r k' := by
  induction h with
  | nil => exact .inl ⟨rfl, rfl⟩
  | @cons _ _ _ f _ r _ hf _ ih =>
    rw [List.find?_cons, List.find?_cons, hf.eq.1]
    cases f.name.name == name with
    | true => exact .inr ⟨f, r, _, _, rfl, rfl, hf⟩
    | false => exact ih

/-- A call of a routine goes to its body, unless the stack runs over. -/
theorem meets_call {α : Type} {fuel : Nat} {T : α → State → Prop} {res : EStateM.Result Stop σ α} {f : String}
    {r : Subroutine} {k : List Item} (hcs : s.callers.length < most) (hrest : s.rest = .op (.call f) :: k)
    (hf : prog.find? (·.name == f) = some r) (heven : s.words.length % 2 = 0)
    (h : Meets prog most fuel T (entryState r ⟨some (s.routine, k), s.regs, s.words⟩ s.callers s.flags) host res) :
    Meets prog most (fuel + 1) T s host res := by
  have hnext : ∀ junk, s.next prog junk host = some (if s.depth + linkWords ≤ stackWords then
      .goes (entryState r ⟨some (s.routine, k), s.regs, s.words⟩ s.callers s.flags) host
      else .fails (s.overflow junk) host) := by
    intro junk
    rw [State.next, hrest]
    dsimp only [Op.run]
    rw [if_pos heven, State.call, hf]
    rfl
  by_cases hroom : s.depth + linkWords ≤ stackWords
  · have hcost : s.cost prog = linkWords + 1 := by
      rw [State.cost, hrest]
      simp [hf]
    have hstep : s.Surely prog host
        (.goes (entryState r ⟨some (s.routine, k), s.regs, s.words⟩ s.callers s.flags) host) :=
      fun junk => by rw [hnext, if_pos hroom]
    refine (Meets.lead (.one hstep) h).mono ?_ fun _ _ ht => ht
    rw [hcost]
    omega
  · refine .spills ⟨0, s, host, .refl s host, .call hrest hf heven (Nat.lt_of_not_le hroom), ?_⟩
    rw [State.frames, hrest]
    exact hcs

/-- A call of a function of the host comes to what the host says. -/
theorem meets_host {fuel : Nat} {f : String} {i : Intrinsic} {args : List Int64} {r : Subroutine} {cs : List Caller}
    {k : List Item} {ws : List (Option Int64)} (hs : s.At r cs (.op (.call f) :: k) ws)
    (hf : prog.find? (·.name == f) = none) (hi : Intrinsic.ofName? f = some i) (hargs : s.arguments i.arity = some args)
    (heven : ws.length % 2 = 0) :
    Meets prog most fuel (fun v t => t.At r cs k ws ∧ t.regs .rax = v) s host
      (Eval.result (i.call args host).1 (i.call args host).2) := by
  have hnext : ∀ junk, s.next prog junk host = State.call prog junk f { s with rest := k } host := by
    intro junk
    rw [State.next, hs.rest]
    dsimp only [Op.run]
    rw [if_pos (hs.words.symm ▸ heven)]
  have harguments : State.arguments { s with rest := k } i.arity = some args := hargs
  cases hcall : i.call args host with
  | mk res host' =>
    cases res with
    | ok v =>
      have hstep : s.Surely prog host (.goes (State.set { s with rest := k } .rax v) host') := fun junk => by
        rw [hnext]
        simp only [State.call, hf, hi, harguments, hcall]
      exact .ok (.one hstep) ⟨⟨hs.routine, hs.callers, rfl, hs.words⟩, rfl⟩
    | error e =>
      have hstep : s.Surely prog host (.fails e host') := fun junk => by
        rw [hnext]
        simp only [State.call, hf, hi, harguments, hcall]
      exact .fails (.fail hstep)

/-- **A call on the machine does what the evaluation of the call says**, with a frame for each of the calls that the
evaluation may make inside one another. -/
theorem Program.callsMeet {p : Program} {symbols : SymbolTable} {rounds fuel depth : Nat} {cs : List Caller}
    (hcode : ProgramCode ⟨symbols, p.arityOf⟩ n p.functions prog n')
    (hn : ∀ r ∈ prog, ((labels r.body).map Prod.fst).Nodup) (hinit : p.initialised = true) (hvalued : p.valued = true)
    (hrounds : fuel ≤ rounds) (hfuel : fuel ≤ depth) (hdepth : cs.length + depth ≤ most) :
    CallsMeet (σ := σ) prog ⟨symbols, p.arityOf⟩ cs most fuel (p.call symbols rounds depth) := by
  induction depth generalizing fuel cs with
  | zero => exact fun _ _ _ _ => .unfinished hfuel (.refl _ _)
  | succ depth ih =>
    intro s r k ws f args host hs harity hargs heven
    rw [Program.call]
    change p.arityOf f = _ at harity
    unfold Program.arityOf at harity
    rcases hcode.finds f with ⟨hnone, hnone'⟩ | ⟨g, q, m, m', hg, hq, hroutine⟩
    · rw [show p.find? f = none from hnone] at harity ⊢
      obtain ⟨i, hi, hlen⟩ := Option.map_eq_some_iff.1 harity
      dsimp only
      rw [hi]
      exact meets_host hs hnone' hi (hlen ▸ hargs) heven
    · rw [show p.find? f = some g from hg] at harity ⊢
      have hlen : args.length = g.params.length := (Option.some.inj harity).symm
      have hmem := List.mem_of_find?_eq_some hg
      have hprovides : Caller.Provides ⟨some (s.routine, k), s.regs, s.words⟩ args := hargs
      have hcallers : (Caller.mk (some (s.routine, k)) s.regs s.words :: s.callers).length + depth ≤ most := by
        rw [List.length_cons, hs.callers]
        omega
      have hcalls : CallsMeet (σ := σ) prog ⟨symbols, p.arityOf⟩
          (⟨some (s.routine, k), s.regs, s.words⟩ :: s.callers) most (fuel - 1) (p.call symbols rounds depth) :=
        ih (by omega) (by omega) hcallers
      have hbody := hroutine.meets hcalls (Nat.le_of_add_right_le hcallers) (Nat.le_trans (Nat.sub_le fuel 1) hrounds)
        (hn q (List.mem_of_find?_eq_some hq)) (List.all_eq_true.1 hinit g hmem) (List.all_eq_true.1 hvalued g hmem)
        hprovides hlen s.flags host
      have hmeets := meets_call (Nat.lt_of_succ_le (Nat.le_of_add_right_le hcallers)) hs.rest hq (hs.words ▸ heven)
        hbody
      refine (hmeets.mono (Nat.le_add_of_sub_le (Nat.le_refl _)) fun _ _ h => h).reaches
        fun v t host' ht => ?_
      obtain ⟨-, hcallers, hrest, hv⟩ := ht
      have hleave : t.Surely prog host'
          (.goes ⟨s.routine, k, restored s.regs t.regs, t.flags, s.words, s.callers⟩ host') := by
        intro junk
        rw [State.next, hrest]
        dsimp only
        rw [State.leave, hcallers]
      exact .step hleave (.here ⟨⟨hs.routine, hs.callers, rfl, hs.words⟩, hv⟩)

/-- What the evaluation of the outermost call has to do with its steps. -/
theorem Meets.finishes {fuel : Nat} {r : Subroutine} {res : EStateM.Result Stop σ Int64}
    (h : Meets prog most fuel (fun v t => t.routine = r ∧ t.callers = [⟨none, fun _ => 0, []⟩] ∧ t.rest = [] ∧
      t.regs .rax = v) s host res) {v : Except MachineError Int64} {host' : σ}
    (hres : res = Eval.result v host') :
    Spills prog most s host ∨ ∃ n, Finishes prog n s host v host' := by
  cases h with
  | spills h => exact .inl h
  | @ok m w t _ hl ht =>
    obtain ⟨-, hcallers, hrest, rfl⟩ := ht
    cases v with
    | error e => cases hres
    | ok v =>
      cases hres
      have hleave : t.Surely prog host' (.halts (t.regs .rax) host') := by
        intro junk
        rw [State.next, hrest]
        dsimp only
        rw [State.leave, hcallers]
      exact .inr ⟨_, hl.ends (.halt hleave)⟩
  | fails hf =>
    cases v with
    | ok v => cases hres
    | error e =>
      cases hres
      exact .inr ⟨_, hf⟩
  | unfinished _ _ =>
    cases v with
    | ok v => cases hres
    | error e => cases hres

/-- A run that ends, and not because the stack runs over, ends as an evaluation does whose bounds are greater than the
steps of the run. -/
theorem Meets.result_of_halts {code : Code} {mode : Mode} {r : Subroutine} {x : Point σ} {k : Nat} {halt : Halt σ}
    {res : EStateM.Result Stop σ Int64}
    (h : Meets prog most (k + 1) (fun v t => t.routine = r ∧ t.callers = [⟨none, fun _ => 0, []⟩] ∧ t.rest = [] ∧
      t.regs .rax = v) s host res)
    (himp : code.Implements prog) (hin : InOrder prog mode) (hx : Running prog mode s x) (hhost : x.host = host)
    (hhalts : code.Halts k x halt) (hplain : ∀ e, halt.result = .error e → e.ofStack = false) :
    res = Eval.result halt.result halt.host := by
  have hspills : ¬ Spills prog most s host := by
    intro hspills
    obtain ⟨steps, hsteps⟩ := hspills.halts himp hin
    obtain ⟨k, e, cpu, host', -, hover, he⟩ := hsteps x hx hhost
    obtain ⟨-, rfl⟩ := hhalts.unique hover
    rw [hplain e rfl] at he
    cases he
  have hfinishes : ∀ {v host'}, res = Eval.result v host' → halt.result = v ∧ halt.host = host' := by
    intro v host' hres
    obtain ⟨k, hfinishes⟩ := (h.finishes hres).resolve_left hspills
    obtain ⟨i, cpu, -, hi⟩ := hfinishes.halts himp hin hx hhost
    obtain ⟨-, rfl⟩ := hhalts.unique hi
    exact ⟨rfl, rfl⟩
  cases res with
  | ok v host' =>
    obtain ⟨hv, hh⟩ := hfinishes (v := .ok v) rfl
    rw [hv, hh]
    rfl
  | error e host' =>
    cases e with
    | failure e =>
      obtain ⟨hv, hh⟩ := hfinishes (v := .error e) rfl
      rw [hv, hh]
      rfl
    | unfinished =>
      cases h with
      | spills h => exact absurd h hspills
      | unfinished hk hl =>
        -- The run would be longer than it is.
        obtain ⟨y, hy, -⟩ := hl.runs himp hin hx hhost
        have := (hhalts.after hy).1
        omega
    | stuck =>
      cases h with
      | spills h => exact absurd h hspills

end Calls

/-! ## Compiled programs -/

section Compiled

variable {source : String} {p : Program} {a : Analysis} {m : Module}

/-- The stack has run over. Where `slack` calls or more stand inside one another, their padding, which is not checked,
may move the stack pointer below the first address instead. -/
def Program.Overflows (p : Program) (e : MachineError) : Prop :=
  e = .stackOverflow ∨ (∃ address, e = .invalidAddress address) ∧ ¬ p.callDepth < slack

theorem overflows_of_halts {prog : List Subroutine} {code : Code}
    (hbuilt : Built m prog p.mode code) {s : State} {x : Point Script} (hx : Running prog p.mode s x)
    {k : Nat} {e : MachineError} {cpu : Cpu} {host' : Script} (hhalts : code.Halts k x ⟨.error e, cpu, host'⟩)
    (he : e.ofStack = true) (hinit : p.initialised = true) : p.Overflows e := by
  rcases halts_safely hbuilt.implements hbuilt.inOrder hx hhalts rfl with hallows | ⟨host, hread⟩
  · cases e with
    | stackOverflow => exact .inl rfl
    | invalidAddress address =>
      refine .inr ⟨⟨address, rfl⟩, fun hdepth => hallows ⟨hinit, ?_, rfl⟩⟩
      exact Bool.and_eq_true_iff.2 ⟨hinit, decide_eq_true hdepth⟩
    | _ => cases he
  · rw [read_script_error hread] at he
    cases he

/-- What evaluations of `main` and its routine have to do with each other. -/
theorem Compiled.outermost_meets {n : Nat} {prog : List Subroutine}
    (hcode : ProgramCode ⟨a.symbols, p.arityOf⟩ 0 p.functions prog n)
    (hn : ∀ r ∈ prog, ((labels r.body).map Prod.fst).Nodup) (hnames : (prog.map Subroutine.name).Nodup)
    (hinit : p.initialised = true) (hvalued : p.valued = true) {f : Func} (hf : f ∈ p.functions)
    (hparams : f.params = []) :
    ∃ r ∈ prog, r.name = f.name.name ∧ r.arity = 0 ∧ ∀ (host : Script) {rounds depth fuel : Nat}, fuel ≤ rounds →
      fuel ≤ depth → Meets prog (depth + 1) fuel (fun v t => t.routine = r ∧ t.callers = [⟨none, fun _ => 0, []⟩] ∧
        t.rest = [] ∧ t.regs .rax = v) (outermost r) host (p.call a.symbols rounds (depth + 1) f.name.name [] host) := by
  rcases hcode.finds f.name.name with ⟨hnone, -⟩ | ⟨g, r, k, k', hg, hr, hroutine⟩
  · exact absurd (beq_self_eq_true f.name.name) (List.find?_eq_none.1 hnone f hf)
  · obtain ⟨hmem, hname⟩ := find?_mem hr
    obtain ⟨q, hq, hqname, hqarity⟩ := hcode.exists_routine hf
    obtain rfl : r = q := List.inj_on_of_nodup_map hnames hmem hq (hname.trans hqname.symm)
    rw [hparams, List.length_nil] at hqarity
    refine ⟨r, hmem, hname, hqarity, fun host rounds depth fuel hrounds hfuel => ?_⟩
    have hgmem := List.mem_of_find?_eq_some hg
    have hargs : Caller.Provides ⟨none, fun _ => 0, []⟩ [] := rfl
    have hdepth : List.length [Caller.mk none (fun _ => 0) []] + depth ≤ depth + 1 :=
      Nat.le_of_eq (Nat.add_comm 1 depth)
    rw [Program.call, show p.find? f.name.name = some g from hg]
    exact hroutine.meets (Program.callsMeet hcode hn hinit hvalued hrounds hfuel hdepth) (Nat.le_add_left 1 depth)
      hrounds (hn r hmem) (List.all_eq_true.1 hinit g hgmem) (List.all_eq_true.1 hvalued g hgmem) hargs
      (hqarity.symm.trans hroutine.eq.2.1) none host

/-- Where the stack runs over there is no room for all frames. -/
theorem lt_frames_of_spills {n most : Nat} {prog : List Subroutine} {r : Subroutine} {script : Script}
    (hcode : ProgramCode ⟨a.symbols, p.arityOf⟩ 0 p.functions prog n)
    (hn : ∀ r ∈ prog, ((labels r.body).map Prod.fst).Nodup) (hr : r ∈ prog)
    (h : Spills prog most (outermost r) script) : stackWords < most * p.frameWords := by
  by_contra hroom
  have hlocated : Located prog (outermost r) := ⟨hr, List.suffix_refl _, .outermost _⟩
  exact not_spills (fun _ => hcode.width_le_frameWords) (Nat.le_of_not_lt hroom) hcode.leveled hn
    (level_outermost r) hlocated h

/-- What comes of a run in which the stack runs over. -/
theorem run_of_spills {most : Nat} {prog : List Subroutine} {code : Code} {r : Subroutine} {script : Script}
    (hbuilt : Built m prog p.mode code) (hr : r ∈ prog) (hguard : r.arity ≤ argumentRegisters.length)
    (hinit : p.initialised = true) (h : Spills prog most (outermost r) script) (stack : Stack) :
    ∃ steps, ∀ limit, steps ≤ limit →
      ∃ e, ((Machine.mk code stack script limit 0).run r.name).1 = .error e ∧ p.Overflows e := by
  obtain ⟨steps, hsteps⟩ := h.halts hbuilt.implements hbuilt.inOrder
  refine ⟨entryWidth + steps, fun limit hlimit => ?_⟩
  obtain ⟨x, hx, hhost, hrun, -⟩ :=
    Machine.run_outermost hbuilt.implements hbuilt.inOrder hr (fun _ => hguard) stack script limit 0
  obtain ⟨k, e, cpu, host', hk, hhalts, he⟩ := hsteps x hx hhost
  rw [hrun k _ hhalts (by omega)]
  exact ⟨e, rfl, overflows_of_halts hbuilt hx hhalts he hinit⟩

/-- **A compiled program computes what it means.** If every variable has an initial value and every `return` a
value, and the evaluation of `main` comes to a value, or divides by zero, overflows a division or finds no more
input, then so does every run that may take enough steps, with the same input read and the same output, unless the
stack runs over. It does not if it has room for the frames of as many calls as the evaluation makes inside one
another. Conversely what a run comes to the evaluation comes to. -/
theorem compiled_run_evaluates (h : Compiled source p a m) (hlen : source.length < 2 ^ 55)
    (hinit : p.initialised = true) (hvalued : p.valued = true) {f : Func} (hf : f ∈ p.functions)
    (hmain : f.name.name = Compilation.entryPoint) (hparams : f.params = []) (script : Script) :
    (∀ rounds depth res script',
      p.call a.symbols rounds depth Compilation.entryPoint [] script = Eval.result res script' →
      ∃ steps, ∀ limit, steps ≤ limit → ∃ machine, Machine.ofModule m script limit = .ok machine ∧
        ((machine.run Compilation.entryPoint).1 = res ∧ (machine.run Compilation.entryPoint).2.host = script' ∨
          stackWords < depth * p.frameWords ∧
            ∃ e, (machine.run Compilation.entryPoint).1 = .error e ∧ p.Overflows e)) ∧
    ∀ limit, ∃ machine, Machine.ofModule m script limit = .ok machine ∧
      ((∀ e, (machine.run Compilation.entryPoint).1 = .error e →
          e = .divisionByZero ∨ e = .divisionOverflow ∨ e = .inputExhausted) →
        p.Evaluates a.symbols Compilation.entryPoint [] script (machine.run Compilation.entryPoint).1
          (machine.run Compilation.entryPoint).2.host) := by
  obtain ⟨prog, k, code, hcode, hbuilt, -⟩ := h.builds p.allows_mode (h.instructionCount_lt hlen)
  obtain ⟨r, hr, hname, harity, hmeets⟩ := Compiled.outermost_meets hcode hbuilt.inOrder.labels hbuilt.implements.names
    hinit hvalued hf hparams
  rw [hmain] at hname hmeets
  have hguard : r.arity ≤ argumentRegisters.length := by
    rw [harity]
    exact Nat.zero_le _
  refine ⟨fun rounds depth res script' heval => ?_, fun limit => ⟨_, hbuilt.machine script limit, fun hplain => ?_⟩⟩
  · cases depth with
    | zero => cases res <;> cases heval
    | succ depth =>
      rcases (hmeets script (Nat.zero_le rounds) (Nat.zero_le depth)).finishes heval with hspills | ⟨steps, hfinishes⟩
      · have hlt := lt_frames_of_spills hcode hbuilt.inOrder.labels hr hspills
        obtain ⟨steps, hsteps⟩ := run_of_spills hbuilt hr hguard hinit hspills (.replicate stackWords 0)
        rw [hname] at hsteps
        exact ⟨steps, fun limit hlimit => ⟨_, hbuilt.machine script limit, .inr ⟨hlt, hsteps limit hlimit⟩⟩⟩
      · refine ⟨entryWidth + steps, fun limit hlimit => ⟨_, hbuilt.machine script limit, .inl ?_⟩⟩
        obtain ⟨k, stack', -, hrun⟩ := hfinishes.run hbuilt.implements hbuilt.inOrder hr (fun _ => hguard)
          (.replicate stackWords 0) 0 hlimit
        rw [← hname, hrun]
        exact ⟨rfl, rfl⟩
  · rw [← hname] at hplain ⊢
    rcases Machine.run_cases hbuilt.implements hbuilt.inOrder hr (fun _ => hguard) (.replicate stackWords 0) script
        limit 0 with ⟨x, n, halt, hx, hhost, hhalts, -, hrun⟩ | hcut
    · rw [hrun] at hplain ⊢
      have hstack : ∀ e, halt.result = .error e → e.ofStack = false := by
        intro e he
        rcases hplain e he with rfl | rfl | rfl <;> rfl
      rw [hname]
      exact ⟨n + 1, n + 2, (hmeets script (Nat.le_refl (n + 1)) (Nat.le_refl (n + 1))).result_of_halts
        hbuilt.implements hbuilt.inOrder hx hhost hhalts hstack⟩
    · rw [hcut] at hplain
      rcases hplain _ rfl with he | he | he <;> cases he

/-- The evaluation of the sample, with four rounds for its loop and two calls inside one another. -/
theorem call_sample : sampleProgram.call sampleAnalysis.symbols 4 2 Compilation.entryPoint [] (⟨[], ""⟩ : Script) =
    Eval.result (.ok 7) ⟨[], ""⟩ := by
  unfold sampleAnalysis
  rfl

/-- The stack has room for the frames of the sample, so a run that may take enough steps comes to seven, and one that
comes to a value comes to no other. -/
theorem compiled_run_evaluates_sample :
    (∃ steps, ∀ limit, steps ≤ limit → ∃ machine,
      Machine.ofModule sampleModule (⟨[], ""⟩ : Script) limit = .ok machine ∧
        (machine.run Compilation.entryPoint).1 = .ok 7) ∧
    ∀ limit, ∃ machine, Machine.ofModule sampleModule (⟨[], ""⟩ : Script) limit = .ok machine ∧
      ∀ v, (machine.run Compilation.entryPoint).1 = .ok v → v = 7 := by
  have hmain : sampleMain ∈ sampleProgram.functions := List.mem_cons_of_mem _ List.mem_cons_self
  obtain ⟨hevaluated, hrun⟩ := compiled_run_evaluates compiled_sample (Nat.lt_trans length_sample (by decide))
    (by decide +kernel) (by decide +kernel) hmain rfl rfl ⟨[], ""⟩
  refine ⟨?_, fun limit => ?_⟩
  · obtain ⟨steps, hsteps⟩ := hevaluated 4 2 _ _ call_sample
    refine ⟨steps, fun limit hlimit => ?_⟩
    obtain ⟨machine, hmachine, ⟨hresult, -⟩ | ⟨hroom, -⟩⟩ := hsteps limit hlimit
    · exact ⟨machine, hmachine, hresult⟩
    · exact absurd hroom (by decide +kernel)
  · obtain ⟨machine, hmachine, hevaluates⟩ := hrun limit
    refine ⟨machine, hmachine, fun v hv => ?_⟩
    have hvalue := hevaluates fun e he => by rw [hv] at he; cases he
    rw [hv] at hvalue
    exact Except.ok.inj (hvalue.unique ⟨_, _, call_sample⟩).1

end Compiled

end MicroC
