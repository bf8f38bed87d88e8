import MicroC.Proofs.Machine.Returns
import MicroC.Proofs.Routine.Run

/-!
# Calls on the machine

A run on the machine follows the steps of a state, up to the few instructions of a step that is not over.
So a call that comes back finds the registers and the words of its caller as it left them.

* `Running.fill`: a state may be taken to know all words that are in memory.
* `Tracks`: the steps that a run on the machine follows.
* `Running.between`: where the machine is inside a step.
* **`Running.tracks`**: every run follows some steps.
* **`Tracks.comes_back`**: a call that comes back has given its caller back.
-/

namespace MicroC

open Convention Code

/-! ## Words in memory -/

/-- The word with a number of words below it. -/
def Cpu.word? (c : Cpu) (i : Nat) : Option Int64 :=
  if h : i < stackWords then some (c.stack.get ⟨i, h⟩) else none

theorem Cpu.word?_eq_some {c : Cpu} {i : Nat} {w : Int64} (h : c.word? i = some w) :
    ∃ hi : i < stackWords, c.stack.get ⟨i, hi⟩ = w := by
  rw [Cpu.word?] at h
  split at h
  · next hi => exact ⟨hi, Option.some.inj h⟩
  · cases h

/-- Gives words without a value what is in memory there. -/
def fill (mem : Nat → Option Int64) (base : Nat) : List (Option Int64) → List (Option Int64)
  | [] => []
  | w :: ws => (w <|> mem (base + ws.length)) :: fill mem base ws

/-- The same for the words of callers. -/
def fillCallers (mem : Nat → Option Int64) : List Caller → List Caller
  | [] => []
  | c :: cs => { c with words := fill mem (contextDepth cs) c.words } :: fillCallers mem cs

/-- The same for all words of a state. -/
def State.fill (mem : Nat → Option Int64) (s : State) : State :=
  { s with words := MicroC.fill mem (contextDepth s.callers) s.words, callers := fillCallers mem s.callers }

section Fill

variable {mem : Nat → Option Int64}

@[simp] theorem length_fill (base : Nat) (ws : List (Option Int64)) : (fill mem base ws).length = ws.length := by
  induction ws with
  | nil => rfl
  | cons w ws ih => simp [fill, ih]

theorem fill_append (base : Nat) (us ws : List (Option Int64)) :
    fill mem base (us ++ ws) = fill mem (base + ws.length) us ++ fill mem base ws := by
  induction us with
  | nil => rfl
  | cons u us ih =>
    have hbase : base + (us ++ ws).length = base + ws.length + us.length := by
      rw [List.length_append]
      omega
    rw [List.cons_append, fill, ih, hbase]
    rfl

theorem under_fill (base : Nat) (ws : List (Option Int64)) (i : Nat) :
    under (fill mem base ws) i = (under ws i).map (· <|> mem (base + i)) := by
  induction ws with
  | nil => rfl
  | cons w ws ih =>
    rw [fill, under_cons, under_cons, length_fill]
    by_cases hi : i = ws.length
    · rw [if_pos hi, if_pos hi, hi]
      rfl
    · rw [if_neg hi, if_neg hi, ih]

@[simp] theorem contextDepth_fill (cs : List Caller) : contextDepth (fillCallers mem cs) = contextDepth cs := by
  induction cs with
  | nil => rfl
  | cons c cs ih => simp [fillCallers, contextDepth, ih]

theorem frameAddress_fill (cs : List Caller) : frameAddress (fillCallers mem cs) = frameAddress cs := by
  cases cs with
  | nil => rfl
  | cons c cs =>
    show addr (contextDepth (fillCallers mem (c :: cs))) = _
    rw [contextDepth_fill]
    rfl

theorem fill_link (prog : List Subroutine) (c : Caller) (cs : List Caller) (base : Nat) :
    fill mem base (link prog c cs) = link prog c cs := rfl

theorem context_fill (prog : List Subroutine) (cs : List Caller) :
    context prog (fillCallers mem cs) = fill mem 0 (context prog cs) := by
  induction cs with
  | nil => rfl
  | cons c cs ih =>
    rw [context, fill_append, fill_append, fill_link, Nat.zero_add, length_context, ← ih, fillCallers, context, link,
      frameAddress_fill]
    rfl

theorem Suits.fill {ks : List Kind} {ws : List (Option Int64)} (h : Suits ks ws) (base : Nat) :
    Suits ks (MicroC.fill mem base ws) := by
  induction h with
  | nil => exact .nil
  | @cons k w _ _ hk _ ih =>
    refine .cons (fun hne => ?_) ih
    obtain ⟨v, rfl⟩ := Option.isSome_iff_exists.1 (hk hne)
    rfl

theorem Awaits.fill {prog : List Subroutine} {mode : Mode} {n : Nat} {cs : List Caller}
    (h : Awaits prog mode n cs) : Awaits prog mode n (fillCallers mem cs) := by
  induction h with
  | outermost hn regs => exact .outermost hn regs
  | call hr hk hw hl hn hd _ ih =>
    refine .call hr hk (hw.fill _) hl hn ?_ ih
    simpa [contextDepth] using hd

theorem Linked.fill {prog : List Subroutine} {cs : List Caller} (h : Linked prog cs) :
    Linked prog (fillCallers mem cs) := by
  induction h with
  | outermost regs => exact .outermost regs
  | call hr hk hw _ ih => exact .call hr hk (by rwa [length_fill]) ih

theorem State.depth_fill (s : State) : (s.fill mem).depth = s.depth := by
  simp [State.depth, State.fill]

theorem State.stack_fill (prog : List Subroutine) (s : State) :
    (s.fill mem).words ++ context prog (s.fill mem).callers =
      MicroC.fill mem 0 (s.words ++ context prog s.callers) := by
  rw [fill_append, Nat.zero_add, length_context]
  exact congrArg _ (context_fill prog s.callers)

end Fill

section Running

variable {σ : Type} {prog : List Subroutine} {mode : Mode} {s : State} {p : Point σ}

/-- **A state may be taken to know all words that are in memory.** -/
theorem Running.fill (h : Running prog mode s p) : Running prog mode (s.fill p.cpu.word?) p where
  sound := by
    obtain ⟨sh, hcheck, hs, hd⟩ := h.sound.shape
    refine ⟨h.sound.routine, ⟨sh, hcheck, ⟨hs.words.fill _, hs.flags, hs.wide, hs.facts⟩, ?_, hd.words⟩, h.sound.callers.fill⟩
    rw [State.depth_fill]
    exact hd.depth
  located := ⟨h.located.routine, h.located.rest, h.located.linked.fill⟩
  represents := by
    have hm := h.represents.mirrors
    refine ⟨h.represents.pc, hm.reg, ?_, ⟨?_, ?_⟩, hm.flags, ?_⟩
    · rw [hm.rbp]
      exact (frameAddress_fill _).symm
    · rw [State.stack_fill, length_fill]
      exact hm.holds.rsp
    · intro i w hi
      rw [State.stack_fill, under_fill, Nat.zero_add] at hi
      obtain ⟨v, hv, hw⟩ := Option.map_eq_some_iff.1 hi
      cases v with
      | some v =>
        cases hw
        exact hm.holds.word i w hv
      | none => exact Cpu.word?_eq_some hw
    · rw [hm.returns]
      show _ = (fillCallers _ s.callers).map _
      induction s.callers with
      | nil => rfl
      | cons c cs ih => rw [fillCallers, List.map_cons, List.map_cons, ih]; rfl

/-- All words in memory are known. -/
theorem Running.under_fill (h : Running prog mode s p) {i : Nat} (hi : i < s.depth) (hw : i < stackWords) :
    under ((s.fill p.cpu.word?).words ++ context prog (s.fill p.cpu.word?).callers) i =
      some (some (p.cpu.stack.get ⟨i, hw⟩)) := by
  rw [State.stack_fill, MicroC.under_fill, Nat.zero_add]
  have hlt : i < (s.words ++ context prog s.callers).length := by
    rw [Mirrors.length_stack]
    exact hi
  cases hv : under (s.words ++ context prog s.callers) i with
  | none => exact absurd hlt (Nat.not_lt.2 (under_eq_none.1 hv))
  | some v =>
    cases v with
    | some v =>
      obtain ⟨hw', rfl⟩ := h.represents.mirrors.holds.word i v hv
      rfl
    | none =>
      rw [Option.map_some, Cpu.word?, dif_pos hw]
      rfl

end Running

/-! ## Return addresses -/

variable {σ : Type} [Host σ] {code : Code} {prog : List Subroutine} {mode : Mode} {s t u : State}
  {p q x y z : Point σ} {m n : Nat}

/-- Inside a sequence of instructions on data. -/
theorem Code.Has.runs_data {cells : List Cell} (h : code.Has p.pc cells)
    (hd : ∀ cell ∈ cells, ∃ o args, cell = .data o args ∧ o ≠ .retq) (hm : m ≤ cells.length)
    (hr : code.Runs m p q) : q.pc = p.pc + m ∧ q.cpu.returns = p.cpu.returns ∧ q.host = p.host := by
  induction m generalizing p cells with
  | zero =>
    cases hr
    exact ⟨rfl, rfl, rfl⟩
  | succ m ih =>
    cases cells with
    | nil => simp at hm
    | cons cell cells =>
      obtain ⟨x, hx, hr⟩ := hr
      obtain ⟨o, args, rfl, ho⟩ := hd cell List.mem_cons_self
      rw [Point.next_of_data h.head ho] at hx
      split at hx
      · next d hd' =>
        cases hx
        have hlen : m ≤ cells.length := Nat.le_of_succ_le_succ hm
        obtain ⟨hpc, hret, hhost⟩ := ih h.tail (fun c hc => hd c (List.mem_cons_of_mem _ hc)) hlen hr
        rw [hpc, hret, hhost, Act.KeepsReturns.execute o args _ _ _ hd']
        exact ⟨by dsimp only; omega, rfl, rfl⟩
      · cases hx

/-! ## Inside a step -/

/-- A place inside the code that sets up a frame or gives it up. -/
def Between (prog : List Subroutine) (pc : Nat) : Prop :=
  ∃ r ∈ prog, (∃ i < entryWidth, pc = start prog r.name + i) ∨ ∃ i < linkWords, pc = pcOf prog r [] + 1 + i

theorem entryCells_data : ∀ cell ∈ entryCells, ∃ o args, cell = .data o args ∧ o ≠ .retq := by
  simp [entryCells]

theorem exitCells_data : ∀ cell ∈ exitCells.take linkWords, ∃ o args, cell = .data o args ∧ o ≠ .retq := by
  simp [exitCells, linkWords]

theorem Between.cell (himp : code.Implements prog) {pc : Nat} (h : Between prog pc) :
    ∃ o args, code.cells[pc]? = some (.data o args) := by
  obtain ⟨r, hr, ⟨i, hi, rfl⟩ | ⟨i, hi, rfl⟩⟩ := h
  · rw [himp.cell_of_entry hr hi]
    have hcell : entryCells[i]? = some (entryCells.get ⟨i, hi⟩) := List.getElem?_eq_getElem hi
    obtain ⟨o, args, heq, -⟩ := entryCells_data _ (List.get_mem entryCells ⟨i, hi⟩)
    exact ⟨o, args, by rw [hcell, heq]⟩
  · have hi' : 1 + i < exitWidth := by
      simp only [linkWords, exitWidth] at hi ⊢
      omega
    rw [Nat.add_assoc, himp.cell_of_exit hr hi']
    have hdata : ∀ cell ∈ exitCells, ∃ o args, cell = .data o args := by simp [exitCells]
    have hcell : exitCells[1 + i]? = some (exitCells.get ⟨1 + i, hi'⟩) := List.getElem?_eq_getElem hi'
    obtain ⟨o, args, heq⟩ := hdata _ (List.get_mem exitCells ⟨1 + i, hi'⟩)
    exact ⟨o, args, by rw [hcell, heq]⟩

/-- **Where the machine is inside a step**: setting up a frame or giving it up, and not below the call of
the routine. Nothing is read or printed there. -/
theorem Running.between (himp : code.Implements prog) (h : Running prog mode s x) (hr : code.Runs m x y)
    (hpos : 0 < m) (hm : m < s.cost prog) :
    Between prog y.pc ∧ x.cpu.returns.length ≤ y.cpu.returns.length ∧
      (s.rest ≠ [] → x.cpu.returns.length < y.cpu.returns.length) ∧ y.host = x.host := by
  have hroutine := h.located.routine
  have hpc := h.represents.pc
  unfold State.cost at hm
  split at hm
  · next hrest =>
    -- Leaving: the return itself is the last instruction.
    rw [hrest] at hpc
    have hhas : code.Has x.pc (exitCells.take linkWords ++ exitCells.drop linkWords) := by
      rw [List.take_append_drop, hpc]
      exact himp.has_exit hroutine
    obtain ⟨hy, hret, hhost⟩ :=
      hhas.left.runs_data exitCells_data (by simp [exitCells, linkWords] at hm ⊢; omega) hr
    refine ⟨⟨s.routine, hroutine, .inr ⟨m - 1, by omega, ?_⟩⟩, Nat.le_of_eq (by rw [hret]), absurd hrest, hhost⟩
    rw [hy, hpc]
    omega
  · omega
  · next f k hrest =>
    split at hm
    · next hf =>
      obtain ⟨r, hf⟩ := Option.isSome_iff_exists.1 hf
      obtain ⟨hr', hname⟩ := find?_mem hf
      have hcell : code.cells[x.pc]? = some (.call [.label f (start prog f)]) := by
        have := himp.cell_of_op hroutine (hrest ▸ h.located.rest)
        rw [hpc, hrest, this]
        simp [Op.cell, hf]
      obtain ⟨m, rfl⟩ := Nat.exists_eq_succ_of_ne_zero (Nat.ne_of_gt hpos)
      obtain ⟨e, he, hr⟩ := hr
      obtain ⟨hepc, heret, hehost⟩ := next_of_call hcell he
      have hhas : code.Has e.pc entryCells := by
        rw [hepc, ← hname]
        exact himp.has_entry hr'
      have hlen : m ≤ entryCells.length := by
        simp only [entryCells, List.length_cons, List.length_nil, linkWords] at hm ⊢
        omega
      obtain ⟨hy, hret, hhost⟩ := hhas.runs_data entryCells_data hlen hr
      have hmore : x.cpu.returns.length < y.cpu.returns.length := by
        rw [hret, heret]
        exact Nat.lt_succ_self _
      refine ⟨⟨r, hr', .inl ⟨m, by simp only [entryWidth, linkWords] at hm ⊢; omega, ?_⟩⟩, Nat.le_of_lt hmore,
        fun _ => hmore, hhost.trans hehost⟩
      rw [hy, hepc, hname]
    · omega
  · omega

/-! ## Runs that follow steps -/

/-- A run on the machine that follows the steps of a state, with a number of instructions. -/
inductive Tracks (code : Code) (prog : List Subroutine) (mode : Mode) :
    Nat → State → Point σ → State → Point σ → Prop
  | refl {s : State} {x : Point σ} (h : Running prog mode s x) : Tracks code prog mode 0 s x s x
  | step {n : Nat} {s t u : State} {x y z : Point σ} {junk : Junk} (h : Running prog mode s x)
      (hnext : s.next prog junk x.host = some (.goes t y.host)) (hr : code.Runs (s.cost prog) x y)
      (ht : Tracks code prog mode n t y u z) : Tracks code prog mode (s.cost prog + n) s x u z

theorem Tracks.first (h : Tracks code prog mode n s x t y) : Running prog mode s x := by
  cases h with
  | refl h => exact h
  | step h => exact h

theorem Tracks.last (h : Tracks code prog mode n s x t y) : Running prog mode t y := by
  induction h with
  | refl h => exact h
  | step _ _ _ _ ih => exact ih

theorem Tracks.runs (h : Tracks code prog mode n s x t y) : code.Runs n x y := by
  induction h with
  | refl _ => exact .refl _
  | step _ _ hr _ ih => exact hr.trans ih

/-- **Every run follows some steps**, up to the beginning of one more step. -/
theorem Running.tracks (himp : code.Implements prog) (hin : InOrder prog mode) (h : Running prog mode s x)
    (hr : code.Runs n x z) :
    ∃ t y m k, Tracks code prog mode m s x t y ∧ code.Runs k y z ∧ m + k = n ∧ (k = 0 ∨ k < t.cost prog) := by
  -- Steps take time, but for labels, of which only a few stand in a row.
  induction hn : n using Nat.strongRecOn generalizing n s x with
  | ind n ihn =>
  induction hk : s.rest.length using Nat.strongRecOn generalizing s x with
  | ind len ihk =>
  subst hn hk
  by_cases hshort : n = 0 ∨ n < s.cost prog
  · exact ⟨s, x, 0, n, .refl h, hr, Nat.zero_add n, hshort⟩
  · have hle : s.cost prog ≤ n := by omega
    obtain ⟨junk, hdoes⟩ := h.does himp
    obtain ⟨out, hout, -⟩ := h.sound.next hin junk x.host
    have hd := hdoes out hout
    cases out with
    | halts w host' =>
      obtain ⟨cpu, hcpu⟩ := hd
      have := (hcpu.after hr).1
      omega
    | fails e host' =>
      obtain ⟨m, cpu, hm, hcpu⟩ := hd
      have := (hcpu.after hr).1
      omega
    | goes t host' =>
      obtain ⟨y, hy, hrep, rfl⟩ := hd
      have ht := h.goes hin hout hrep
      have hrest := hr.after hy hle
      have htracks : ∃ u y' m k, Tracks code prog mode m t y u y' ∧ code.Runs k y' z ∧
          m + k = n - s.cost prog ∧ (k = 0 ∨ k < u.cost prog) := by
        rcases @cost_pos_or_rest prog s with hpos | ⟨l, ks, k, hlabel⟩
        · exact ihn (n - s.cost prog) (by omega) ht hrest rfl
        · have hcost : s.cost prog = 0 := by
            rw [State.cost, hlabel]
          have htk : t = { s with rest := k } := by
            injection next_label hlabel hout
          subst htk
          rw [hcost, Nat.sub_zero] at hrest ⊢
          refine ihk k.length ?_ ht hrest rfl
          rw [hlabel, List.length_cons]
          omega
      obtain ⟨u, y', m, k, hf, hk, hsum, hlast⟩ := htracks
      exact ⟨u, y', _, k, .step h hout hy hf, hk, by omega, hlast⟩

theorem Running.pass (hin : InOrder prog mode) (h : Running prog mode s x) {l : String} {ks : List Kind}
    {k : List Item} (hrest : s.rest = .label l ks :: k) : Running prog mode { s with rest := k } x := by
  have hnext : s.next prog .none x.host = some (.goes { s with rest := k } x.host) := by
    rw [State.next, hrest]
  refine h.goes hin hnext ⟨?_, h.represents.mirrors.at k⟩
  rw [h.represents.pc, hrest, place_label]

theorem Running.pass_labels (hin : InOrder prog mode) (h : Running prog mode s x) :
    ∃ k, Running prog mode { s with rest := k } x ∧ (k = [] ∨ ∃ o k', k = .op o :: k') := by
  induction hrest : s.rest generalizing s with
  | nil =>
    refine ⟨s.rest, h, .inl hrest⟩
  | cons i k ih =>
    cases i with
    | op o => exact ⟨s.rest, h, .inr ⟨o, k, hrest⟩⟩
    | label l ks => exact @ih { s with rest := k } (h.pass hin hrest) rfl

/-! ## Calls that come back -/

/-- What a step does to the callers: nothing, or it calls a routine, or it takes a caller back. -/
theorem State.next_callers {junk : Junk} {host host' : σ} (h : s.next prog junk host = some (.goes t host')) :
    t.callers = s.callers ∧ t.routine = s.routine ∨
    (∃ f k r, s.rest = .op (.call f) :: k ∧ prog.find? (·.name == f) = some r ∧ s.depth + linkWords ≤ stackWords ∧
      t = entryState r ⟨some (s.routine, k), s.regs, s.words⟩ s.callers s.flags) ∨
    ∃ a cs r k, s.rest = [] ∧ s.callers = a :: cs ∧ a.back = some (r, k) ∧
      t = { routine := r, rest := k, regs := restored a.regs s.regs, flags := s.flags, words := a.words, callers := cs } := by
  unfold State.next at h
  split at h
  · next hrest =>
    unfold State.leave at h
    split at h
    · cases h
    · next a cs hcs =>
      split at h
      · cases h
      · next r k hb =>
        cases h
        exact .inr (.inr ⟨a, cs, r, k, hrest, hcs, hb, rfl⟩)
  · cases h
    exact .inl ⟨rfl, rfl⟩
  · next o k hrest =>
    cases o with
    | jump j l =>
      dsimp only [Op.run] at h
      split at h
      · cases h
      · cases h
        exact .inl ⟨rfl, rfl⟩
      · obtain ⟨k', -, hk'⟩ := Option.map_eq_some_iff.1 h
        cases hk'
        exact .inl ⟨rfl, rfl⟩
    | exit =>
      cases h
      exact .inl ⟨rfl, rfl⟩
    | call f =>
      dsimp only [Op.run] at h
      split at h
      · rcases State.call_goes h with ⟨r, hf, hroom, -, rfl⟩ | ⟨-, i, args, w, -, -, -, rfl⟩
        · exact .inr (.inl ⟨f, k, r, hrest, hf, hroom, rfl⟩)
        · exact .inl ⟨rfl, rfl⟩
      · cases h
    | _ =>
      obtain ⟨hsame, -⟩ := Op.samePlace rfl h
      exact .inl ⟨hsame.callers, hsame.routine⟩

omit [Host σ] in
theorem Running.length_returns (h : Running prog mode s x) : x.cpu.returns.length = s.callers.length := by
  rw [h.represents.mirrors.returns, List.length_map]

/-- **A call that comes back has given its caller back.** -/
theorem Tracks.comes_back {a : Caller} {r : Subroutine} {k : List Item} {bs cs : List Caller}
    (h : Tracks code prog mode n s x t z) (hs : s.callers = bs ++ a :: cs) (hb : a.back = some (r, k))
    (hfirst : ∀ i < n, ∀ y, code.Runs i x y → cs.length < y.cpu.returns.length)
    (hz : z.cpu.returns.length ≤ cs.length) :
    ∃ regs flags, (∀ q ∈ Reg.saved, regs q = a.regs q) ∧ Running prog mode ⟨r, k, regs, flags, a.words, cs⟩ z := by
  induction h generalizing bs with
  | refl h =>
    rw [h.length_returns, hs, List.length_append, List.length_cons] at hz
    omega
  | @step n s t u x y z junk h hnext hr ht ih =>
    have hlater : ∀ i < n, ∀ w, code.Runs i y w → cs.length < w.cpu.returns.length :=
      fun i hi w hw => hfirst _ (by omega) w (hr.trans hw)
    rcases State.next_callers hnext with ⟨hsame, -⟩ | ⟨f, k', r', -, -, -, rfl⟩ | ⟨b, ds, r', k', -, hds, hb', rfl⟩
    · exact ih (hsame.trans hs) hlater hz
    · refine ih (?_ : _ = (⟨some (s.routine, k'), s.regs, s.words⟩ :: bs) ++ a :: cs) hlater hz
      rw [List.cons_append, ← hs]
      rfl
    · rw [hs] at hds
      cases bs with
      | cons b' bs =>
        cases hds
        exact ih rfl hlater hz
      | nil =>
        cases hds
        rw [hb] at hb'
        cases hb'
        -- This is the first time that the caller is back.
        have hy := ht.first.length_returns
        have hn : n = 0 := by
          refine Nat.eq_zero_of_not_pos fun hn => ?_
          have := hlater 0 hn y (.refl y)
          rw [hy] at this
          exact Nat.lt_irrefl _ this
        subst hn
        have hyz : y = z := ht.runs
        subst hyz
        refine ⟨_, _, fun q hq => ?_, ht.first⟩
        rw [restored, if_pos hq]

/-- A call of a function of the module that is made at one point and comes back at another. In between there
are more return addresses in use than at the call. -/
structure Code.ComesBack (code : Code) (x z : Point σ) : Prop where
  called : ∃ name address targets, code.cells[x.pc]? = some (.call (.label name address :: targets))
  runs : ∃ n y, x.next code = .ok y ∧ code.Runs n y z ∧
    ∀ i < n, ∀ w, code.Runs i y w → x.cpu.returns.length < w.cpu.returns.length
  returned : z.cpu.returns.length = x.cpu.returns.length

/-- Looks for the point at which a call comes back, within so many steps. -/
def Code.comeBack? (code : Code) (limit : Nat) (x : Point σ) : Option (Point σ) :=
  match code.cells[x.pc]?, x.next code with
  | some (.call (.label _ _ :: _)), .ok y =>
    (code.first? (·.cpu.returns.length ≤ x.cpu.returns.length) limit y).filter
      (·.cpu.returns.length = x.cpu.returns.length)
  | _, _ => none

theorem Code.comesBack_of_comeBack? {limit : Nat} (h : code.comeBack? limit x = some z) : code.ComesBack x z := by
  unfold Code.comeBack? at h
  split at h
  · next hcall hy =>
    obtain ⟨hz, hreturned⟩ := Option.filter_eq_some_iff.1 h
    obtain ⟨-, m, hm, hbefore⟩ := Code.first?_eq_some hz
    refine ⟨⟨_, _, _, hcall⟩, ⟨m, _, hy, hm, fun i hi w hw => ?_⟩, of_decide_eq_true hreturned⟩
    exact Nat.lt_of_not_le (of_decide_eq_false (hbefore i hi w hw))
  · cases h

/-- What a call has to leave as it was: the registers that a function keeps, and the stack from the stack
pointer upwards. -/
structure Cpu.Kept (c d : Cpu) : Prop where
  reg : ∀ r ∈ [Register.rsp, .rbp, .rbx, .r12, .r13, .r14, .r15], d.get r = c.get r
  word : ∀ address, c.rsp ≤ address → d.load address = c.load address

/-- The words of a stack are those at and above its stack pointer. -/
theorem lt_of_slot? {k address : Nat} {i : Fin stackWords} (hk : k < addressLimit)
    (hle : (addr k).toUInt64.toNat ≤ address) (hi : slot? address = some i) : i.1 < k := by
  unfold slot? at hi
  split at hi
  · next h =>
    cases hi
    have hlt : address < stackTop := h.2.1
    show (stackTop - address) / wordSize - 1 < k
    by_cases hw : wordSize * k ≤ stackTop
    · rw [toNat_addr hw] at hle
      simp only [wordSize, stackTop] at hle hlt hw ⊢
      omega
    · -- Below a pointer that has wrapped around there is all of the stack.
      rw [toNat_addr_wrapped (Nat.lt_of_not_le hw) hk] at hle
      simp only [wordSize, stackTop, addressLimit] at hle hlt hk
      omega
  · cases hi

theorem Cpu.Holds.load_eq {c d : Cpu} {ws : List (Option Int64)} (hc : c.Holds ws) (hd : d.Holds ws)
    (hlen : ws.length ≤ stackWords)
    (hfull : ∀ i (hi : i < stackWords), i < ws.length → under ws i = some (some (c.stack.get ⟨i, hi⟩)))
    {address : Nat} (ha : c.rsp ≤ address) : d.load address = c.load address := by
  unfold Cpu.load
  rw [Cpu.rsp, hc.rsp] at ha
  cases hslot : slot? address with
  | none => rfl
  | some i =>
    obtain ⟨_, hword⟩ := hd.word i.1 _ (hfull i.1 i.2 (lt_of_slot? (Nat.lt_of_le_of_lt hlen (by decide)) ha hslot))
    exact congrArg Except.ok hword

theorem State.next_of_call {f : String} {r : Subroutine} {k : List Item} {junk : Junk} {host host' : σ}
    (hrest : s.rest = .op (.call f) :: k) (hf : prog.find? (·.name == f) = some r)
    (h : s.next prog junk host = some (.goes t host')) :
    s.depth + linkWords ≤ stackWords ∧
      t = entryState r ⟨some (s.routine, k), s.regs, s.words⟩ s.callers s.flags := by
  rw [State.next, hrest] at h
  dsimp only [Op.run] at h
  split at h
  · rcases State.call_goes h with ⟨r', hf', hroom, -, rfl⟩ | ⟨hf', -⟩
    · rw [hf] at hf'
      cases hf'
      exact ⟨hroom, rfl⟩
    · rw [hf] at hf'
      cases hf'
  · cases h

/-- **A call that comes back is transparent to its caller.** -/
theorem Running.kept (himp : code.Implements prog) (hin : InOrder prog mode) (h : Running prog mode s x)
    {f : String} {r : Subroutine} {k : List Item} (hrest : s.rest = .op (.call f) :: k)
    (hf : prog.find? (·.name == f) = some r) (hback : code.ComesBack x z) :
    z.pc = x.pc + 1 ∧ x.cpu.Kept z.cpu := by
  obtain ⟨n, y, hy, hz, hmore⟩ := hback.runs
  have hfill := h.fill
  have hcost : (s.fill x.cpu.word?).cost prog = linkWords + 1 := by
    rw [State.cost, show (s.fill x.cpu.word?).rest = .op (.call f) :: k from hrest]
    simp [hf]
  have hlater : ∀ i, 0 < i → i < n + 1 → ∀ w, code.Runs i x w → x.cpu.returns.length < w.cpu.returns.length := by
    intro i hpos hi w hw
    obtain ⟨i, rfl⟩ := Nat.exists_eq_succ_of_ne_zero (Nat.ne_of_gt hpos)
    obtain ⟨y', hy', hw⟩ := hw
    rw [hy] at hy'
    cases hy'
    exact hmore i (by omega) w hw
  obtain ⟨t, e, m, j, htracks, hj, hsum, hlast⟩ := hfill.tracks himp hin (show code.Runs (n + 1) x z from ⟨y, hy, hz⟩)
  cases htracks with
  | refl _ =>
    -- The call is still being made.
    rcases hlast with rfl | hlast
    · omega
    · obtain ⟨-, -, hlt, -⟩ := hfill.between himp hj (by omega) hlast
      have := hlt (by rw [show (s.fill x.cpu.word?).rest = _ from hrest]; exact List.cons_ne_nil _ _)
      rw [hback.returned] at this
      exact absurd this (Nat.lt_irrefl _)
  | @step m _ u _ _ e' _ junk _ hnext hr htracks =>
    rw [hcost] at hr hsum
    have hj0 : j = 0 := by
      refine Nat.eq_zero_of_not_pos fun hpos => ?_
      obtain ⟨-, hle, -⟩ := htracks.last.between himp hj hpos (hlast.resolve_left (Nat.ne_of_gt hpos))
      have := hlater (linkWords + 1 + m) (by omega) (by omega) e (hr.trans htracks.runs)
      rw [hback.returned] at hle
      omega
    subst hj0
    cases hj
    obtain ⟨hroom, rfl⟩ := State.next_of_call (show (s.fill x.cpu.word?).rest = _ from hrest) hf hnext
    have hlen := hfill.length_returns
    have hfirst : ∀ i < m, ∀ w, code.Runs i e' w → (s.fill x.cpu.word?).callers.length < w.cpu.returns.length := by
      intro i hi w hw
      rw [← hlen]
      exact hlater (linkWords + 1 + i) (by omega) (by omega) w (hr.trans hw)
    obtain ⟨regs, flags, hregs, hend⟩ := @Tracks.comes_back _ _ _ _ _ _ _ _ _ _ _ _ _ [] _ htracks rfl rfl hfirst
      (Nat.le_of_eq (hback.returned.trans hlen))
    have hm := hfill.represents.mirrors
    have hm' := hend.represents.mirrors
    refine ⟨?_, ⟨?_, fun address ha => ?_⟩⟩
    · rw [hend.represents.pc, h.represents.pc, hrest]
      exact (place_succ (hrest ▸ h.located.rest)).symm
    · have hsaved : ∀ q ∈ Reg.saved, z.cpu.get q.register = x.cpu.get q.register := by
        intro q hq
        rw [hm'.reg, hm.reg]
        exact hregs q hq
      have hrsp : z.cpu.get .rsp = x.cpu.get .rsp := hm'.holds.rsp.trans hm.holds.rsp.symm
      have hrbp : z.cpu.get .rbp = x.cpu.get .rbp := hm'.rbp.trans hm.rbp.symm
      simp only [Reg.saved, List.forall_mem_cons] at hsaved ⊢
      obtain ⟨hrbx, hr12, hr13, hr14, hr15, -⟩ := hsaved
      exact ⟨hrsp, hrbp, hrbx, hr12, hr13, hr14, hr15, by simp⟩
    · refine hm.holds.load_eq hm'.holds ?_ (fun i hi hlt => ?_) ha
      · rw [Mirrors.length_stack]
        exact Nat.le_of_add_right_le hroom
      · rw [Mirrors.length_stack, State.depth_fill] at hlt
        exact h.under_fill hlt hi

end MicroC
