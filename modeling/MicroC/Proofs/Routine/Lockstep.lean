import MicroC.Proofs.Routine.Activation
import MicroC.Proofs.Routine.Steady

/-!
# Runs in lockstep

Two runs whose states take the same steps come to the same end after the same number of instructions, with
the same input read and the same output. The words of their stacks that no state knows may differ, and so may
the places of their instructions.

* `Code.Together`: after a number of instructions two runs have come to the same end, or both go on.
* `Lockstep`: states that take the same steps.
* `Running.overflows`: where the stack runs over, its depth tells how the run ends.
* **`Running.together`**: runs from such states stay together.
* **`Machine.run_together`**: what runs of two machines come to.
-/

namespace MicroC

open Convention Code

variable {σ : Type} [Host σ]

/-! ## Runs that stay together -/

/-- After a number of instructions two runs have come to the same end, or both go on, and their hosts are the
same. -/
structure Code.Together (code code' : Code) (p p' : Point σ) (n : Nat) : Prop where
  halts : ∀ f, code.Halts n p f → ∃ cpu, code'.Halts n p' ⟨f.result, cpu, f.host⟩
  runs : ∀ q, code.Runs n p q → ∃ q', code'.Runs n p' q' ∧ q'.host = q.host

/-- The host has no part in some instructions. -/
def Code.Quiet (code : Code) (k : Nat) (p : Point σ) : Prop := ∀ n < k, ∀ q, code.Runs n p q → q.host = p.host

section

variable {code code' : Code} {p p' q q' : Point σ} {k n : Nat} {f : Halt σ}

/-- A run that ends goes on until then. -/
theorem Code.Halts.runs_of_lt (h : code.Halts k p f) (hn : n < k) : ∃ q, code.Runs n p q := by
  rcases runs_or_halts code n p with hq | ⟨m, g, hm, hg⟩
  · exact hq
  · obtain ⟨rfl, -⟩ := h.unique hg
    omega

namespace Code.Together

theorem behind (hq : code.Runs k p q) (hq' : code'.Runs k p' q') (hk : k ≤ n)
    (h : Together code code' q q' (n - k)) : Together code code' p p' n := by
  have hsum : k + (n - k) = n := Nat.add_sub_cancel' hk
  refine ⟨fun f hf => ?_, fun r hr => ?_⟩
  · obtain ⟨cpu, hcpu⟩ := h.halts f (hf.after hq).2
    have := hq'.halts hcpu
    rw [hsum] at this
    exact ⟨cpu, this⟩
  · obtain ⟨r', hr', hhost⟩ := h.runs r (hr.after hq hk)
    have := hq'.trans hr'
    rw [hsum] at this
    exact ⟨r', this, hhost⟩

/-- Two runs are together while the host has no part in them. -/
theorem inside (hhost : p'.host = p.host) (hquiet : code.Quiet k p) (hquiet' : code'.Quiet k p')
    (hgoes : ∀ f, ¬ code.Halts n p f) (hgoes' : ∃ q', code'.Runs n p' q') (hn : n < k) :
    Together code code' p p' n := by
  refine ⟨fun f hf => absurd hf (hgoes f), fun q hq => ?_⟩
  obtain ⟨q', hq'⟩ := hgoes'
  refine ⟨q', hq', ?_⟩
  rw [hquiet n hn q hq, hquiet' n hn q' hq', hhost]

theorem ends {cpu : Cpu} (hhost : p'.host = p.host) (hquiet : code.Quiet k p) (hquiet' : code'.Quiet k p')
    (hf : code.Halts k p f) (hf' : code'.Halts k p' ⟨f.result, cpu, f.host⟩) (n : Nat) :
    Together code code' p p' n := by
  by_cases hn : n < k
  · exact inside hhost hquiet hquiet' (fun g hg => Nat.ne_of_lt hn (hg.unique hf).1) (hf'.runs_of_lt hn) hn
  · refine ⟨fun g hg => ?_, fun q hq => absurd (hf.after hq).1 hn⟩
    obtain ⟨rfl, rfl⟩ := hg.unique hf
    exact ⟨cpu, hf'⟩

end Code.Together

end

/-! ## States that take the same steps -/

/-- States of two programs that take the same steps, with the same number of instructions. -/
structure Lockstep (σ : Type) [Host σ] (prog prog' : List Subroutine) (R : State → State → Prop) : Prop where
  cost : ∀ {s s'}, R s s' → s'.cost prog' = s.cost prog
  depth : ∀ {s s'}, R s s' → s'.depth = s.depth
  overflows : ∀ {s s'}, R s s' → s.Overflows prog → s'.Overflows prog'
  goes : ∀ {s s' t} {host host' : σ}, R s s' → s.Surely prog host (.goes t host') →
    ∃ t', s'.Surely prog' host (.goes t' host') ∧ R t t'
  halts : ∀ {s s'} {host host' : σ} {w}, R s s' → s.Surely prog host (.halts w host') →
    s'.Surely prog' host (.halts w host')
  fails : ∀ {s s'} {host host' : σ} {e}, R s s' → s.Surely prog host (.fails e host') →
    s'.Surely prog' host (.fails e host')

theorem Lockstep.refl (prog : List Subroutine) : Lockstep σ prog prog Eq where
  cost h := h ▸ rfl
  depth h := h ▸ rfl
  overflows h ho := h ▸ ho
  goes h hs := ⟨_, h ▸ hs, rfl⟩
  halts h hs := h ▸ hs
  fails h hs := h ▸ hs

section

variable {code code' : Code} {prog prog' : List Subroutine} {mode mode' : Mode} {s s' : State} {p p' : Point σ}

theorem Running.quiet (himp : code.Implements prog) (h : Running prog mode s p) : code.Quiet (s.cost prog) p := by
  intro n hn q hq
  by_cases hpos : 0 < n
  · exact (h.between himp hq hpos hn).2.2.2
  · obtain rfl : n = 0 := by omega
    rw [show p = q from hq]

/-- **Where the stack runs over**, its depth tells how the run ends. -/
theorem Running.overflows (himp : code.Implements prog) (h : Running prog mode s p) (ho : s.Overflows prog) :
    ∃ cpu, code.Halts (overflowSteps s.depth) p ⟨.error (overflowError s.depth), cpu, p.host⟩ := by
  have hdepth := h.sound.depth_lt
  have hl := h.located
  have hrep := h.represents
  cases ho with
  | @push src κ k w hrest hread hfull =>
    have hcell : code.cells[p.pc]? = some (.data .pushq [src.arg]) := by
      have := himp.cell_of_op hl.routine (hrest ▸ hl.rest)
      rw [hrep.pc, hrest, this]
      rfl
    have hfits := hl.fits himp hdepth
    obtain ⟨word, hword⟩ := (hrep.mirrors.at k).read ⟨hfits.called, hfits.depth, hfits.arity, hfits.outermost⟩ src
    have hvalue : Act.read src.arg p.cpu = .ok w p.cpu := hword none _ (hread _)
    have hexec : Act.execute .pushq [src.arg] p.cpu = .error (overflowError s.depth) p.cpu := by
      show (Act.read src.arg >>= Act.push) p.cpu = _
      rw [Act.bind_of_ok hvalue]
      exact hrep.mirrors.push_overflow hdepth hfull w
    rw [overflowSteps, Nat.sub_eq_zero_of_le hfull]
    refine ⟨p.cpu, .one ?_⟩
    rw [Point.next_of_data hcell (by decide), hexec]
  | call hrest hf heven hfull => exact hrep.call_overflow himp hl hdepth hrest hf heven hfull

omit [Host σ] in
/-- A step in which the stack runs over is at least as long as it takes. -/
theorem State.Overflows.steps_le (h : s.Overflows prog) : overflowSteps s.depth ≤ s.cost prog := by
  unfold overflowSteps State.cost
  cases h with
  | push hrest hread hfull =>
    rw [hrest]
    dsimp only
    omega
  | call hrest hf heven hfull =>
    rw [hrest]
    dsimp only
    rw [if_pos (by rw [hf]; rfl)]
    omega

/-- **Runs from states that take the same steps stay together.** -/
theorem Running.together {R : State → State → Prop} (hR : Lockstep σ prog prog' R) (himp : code.Implements prog)
    (himp' : code'.Implements prog') (hin : InOrder prog mode) (hin' : InOrder prog' mode')
    (hstrict : mode.strict = true) (h : Running prog mode s p) (h' : Running prog' mode' s' p') (hss : R s s')
    (hhost : p'.host = p.host) (n : Nat) : Together code code' p p' n := by
  -- Steps take time, but for labels, of which only a few stand in a row.
  induction n using Nat.strongRecOn generalizing s s' p p' with
  | ind n ihn =>
  induction hk : s.rest.length using Nat.strongRecOn generalizing s s' p p' with
  | ind len ihk =>
  subst hk
  have hquiet := h.quiet himp
  have hquiet' := h'.quiet himp'
  rw [hR.cost hss] at hquiet'
  by_cases ho : s.Overflows prog
  · have ho' := hR.overflows hss ho
    have hle := ho.steps_le
    obtain ⟨cpu, hf⟩ := h.overflows himp ho
    obtain ⟨cpu', hf'⟩ := h'.overflows himp' ho'
    rw [hR.depth hss, hhost] at hf'
    exact .ends hhost (fun m hm => hquiet m (by omega)) (fun m hm => hquiet' m (by omega)) hf hf' n
  obtain ⟨junk, hdoes⟩ := h.does himp
  obtain ⟨junk', hdoes'⟩ := h'.does himp'
  obtain ⟨out, hout, -⟩ := h.sound.next hin junk p.host
  have hsure := (h.sound.surely_or_overflows hstrict hout).resolve_right fun hc => ho hc.1
  have hd := hdoes out hout
  rw [hR.cost hss, hhost] at hdoes'
  cases out with
  | halts w host =>
    obtain ⟨cpu, hf⟩ := hd
    obtain ⟨cpu', hf'⟩ := hdoes' _ (hR.halts hss hsure junk')
    exact .ends hhost hquiet hquiet' hf hf' n
  | fails e host =>
    have hcost : s.cost prog = 1 := (cost_of_fails hout).resolve_right fun hc => ho hc.1
    obtain ⟨m, cpu, hm, hf⟩ := hd
    obtain ⟨m', cpu', hm', hf'⟩ := hdoes' _ (hR.fails hss hsure junk')
    have hone : m = 1 ∧ m' = 1 := by
      have hpos := hf.pos
      have hpos' := hf'.pos
      omega
    obtain ⟨rfl, rfl⟩ := hone
    rw [hcost] at hquiet hquiet'
    exact .ends hhost hquiet hquiet' hf hf' n
  | goes t host =>
    obtain ⟨t', ht', htt⟩ := hR.goes hss hsure
    obtain ⟨q, hq, hrep, rfl⟩ := hd
    obtain ⟨q', hq', hrep', hhost'⟩ := hdoes' _ (ht' junk')
    by_cases hn : n < s.cost prog
    · refine .inside hhost hquiet hquiet' (fun f hf => ?_) (hq'.take (Nat.le_of_lt hn)) hn
      exact Nat.lt_asymm hn (hf.after hq).1
    · have hle : s.cost prog ≤ n := Nat.le_of_not_lt hn
      have hrun := h.goes hin hout hrep
      have hrun' : Running prog' mode' t' q' := by
        refine @Running.goes _ _ _ _ _ _ _ hin' h' junk' q' ?_ hrep'
        rw [hhost, hhost']
        exact ht' junk'
      refine .behind hq hq' hle ?_
      rcases @cost_pos_or_rest prog s with hpos | ⟨l, ks, k, hrest⟩
      · exact ihn (n - s.cost prog) (by omega) hrun hrun' htt hhost'
      · have hcost : s.cost prog = 0 := by
          rw [State.cost, hrest]
        have ht : t = { s with rest := k } := by
          injection next_label hrest hout
        subst ht
        rw [hcost, Nat.sub_zero]
        refine ihk k.length ?_ hrun hrun' htt hhost' rfl
        rw [hrest, List.length_cons]
        omega

/-! ## From a routine on -/

theorem runFrom_together (h : ∀ n, Together code code' p p' n) (limit : Nat) :
    let f := runFrom code limit limit p.pc p.cpu p.host
    let f' := runFrom code' limit limit p'.pc p'.cpu p'.host
    f'.result = f.result ∧ f'.host = f.host ∧ f'.steps = f.steps := by
  rcases runs_or_halts code limit p with ⟨q, hq⟩ | ⟨n, f, hn, hf⟩
  · obtain ⟨q', hq', hhost⟩ := (h limit).runs q hq
    rw [runFrom_of_runs hq, runFrom_of_runs hq']
    exact ⟨rfl, hhost, rfl⟩
  · obtain ⟨cpu, hf'⟩ := (h n).halts f hf
    rw [runFrom_of_halts hf hn (Nat.le_refl limit), runFrom_of_halts hf' hn (Nat.le_refl limit)]
    exact ⟨rfl, rfl, rfl⟩

variable {r r' : Subroutine}

/-- **What runs of two machines come to** if their routines take the same steps: the same result, with the same
host, in the same number of instructions. What is on their stacks from earlier runs does not matter. -/
theorem Machine.run_together {R : State → State → Prop} (hR : Lockstep σ prog prog' R) (himp : code.Implements prog)
    (himp' : code'.Implements prog') (hin : InOrder prog mode) (hin' : InOrder prog' mode')
    (hstrict : mode.strict = true) (hr : r ∈ prog) (hr' : r' ∈ prog') (hrr : R (outermost r) (outermost r'))
    (hguard : mode.guarded = true → r.arity ≤ argumentRegisters.length)
    (hguard' : mode'.guarded = true → r'.arity ≤ argumentRegisters.length) (stack stack' : Stack) (host : σ)
    (limit steps steps' : Nat) :
    let x := (Machine.mk code stack host limit steps).run r.name
    let y := (Machine.mk code' stack' host limit steps').run r'.name
    y.1 = x.1 ∧ y.2.host = x.2.host ∧ y.2.steps = x.2.steps := by
  obtain ⟨c, p, hc, hrun, hp, hhost⟩ := running_outermost himp hin hr hguard stack host
  obtain ⟨c', p', hc', hrun', hp', hhost'⟩ := running_outermost himp' hin' hr' hguard' stack' host
  have hquiet : code.Quiet entryWidth (⟨start prog r.name, c, host⟩ : Point σ) := fun n hn q hq =>
    ((himp.has_entry hr).runs_data entryCells_data (Nat.le_of_lt hn) hq).2.2
  have hquiet' : code'.Quiet entryWidth (⟨start prog' r'.name, c', host⟩ : Point σ) := fun n hn q hq =>
    ((himp'.has_entry hr').runs_data entryCells_data (Nat.le_of_lt hn) hq).2.2
  have htogether : ∀ n, Together code code' (⟨start prog r.name, c, host⟩ : Point σ)
      ⟨start prog' r'.name, c', host⟩ n := by
    intro n
    by_cases hn : n < entryWidth
    · refine .inside rfl hquiet hquiet' (fun f hf => ?_) (hrun'.take (Nat.le_of_lt hn)) hn
      exact Nat.lt_asymm hn (hf.after hrun).1
    · exact .behind hrun hrun' (Nat.le_of_not_lt hn)
        (hp.together hR himp himp' hin hin' hstrict hp' hrr (hhost'.trans hhost.symm) _)
  have hfrom := runFrom_together htogether limit
  unfold Machine.run
  dsimp only at hfrom ⊢
  rw [himp.labels r hr, himp'.labels r' hr']
  dsimp only
  rw [hc, hc']
  exact hfrom

end

end MicroC
