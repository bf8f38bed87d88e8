import MicroC.Proofs.Compilation.Runs
import MicroC.Proofs.Routine.Activation

/-!
# Calls of compiled programs

* `running_of_call`: at a call of a routine the machine is where a state says.
* **`calls_transparent`**: a call that comes back leaves its caller as it was.
-/

namespace MicroC

open Convention Code

variable {σ : Type} [Host σ]

section Places

variable {code : Code} {prog : List Subroutine} {mode : Mode} {r : Subroutine} {n : Nat} {c : Cpu} {host : σ}
  {x : Point σ}

/-- A run from a routine sets up its frame, and then follows the steps of states. -/
theorem between_or_running (himp : code.Implements prog) (hin : InOrder prog mode) (hr : r ∈ prog)
    (hguard : mode.guarded = true → r.arity ≤ argumentRegisters.length) {stack : Stack}
    (hc : Machine.entered stack = (.ok (), c)) (hx : code.Runs n ⟨start prog r.name, c, host⟩ x) :
    Between prog x.pc ∨ ∃ s k y, Tracks code prog mode k (outermost r) y s x := by
  obtain ⟨c', y, hc', hy, hrunning, -⟩ := running_outermost himp hin hr hguard stack host
  rw [hc] at hc'
  cases hc'
  by_cases hn : n < entryWidth
  · obtain ⟨hpc, -⟩ := (himp.has_entry hr).runs_data entryCells_data (Nat.le_of_lt hn) hx
    exact .inl ⟨r, hr, .inl ⟨n, hn, hpc⟩⟩
  · obtain ⟨s, z, m, k, htracks, hk, -, hlast⟩ := hrunning.tracks himp hin (hx.after hy (Nat.le_of_not_lt hn))
    rcases Nat.eq_zero_or_pos k with rfl | hpos
    · cases hk
      exact .inr ⟨s, m, y, htracks⟩
    · exact .inl (htracks.last.between himp hk hpos (hlast.resolve_left (Nat.ne_of_gt hpos))).1

/-- **At a call of a routine the machine is where a state says.** -/
theorem running_of_call (himp : code.Implements prog) (hin : InOrder prog mode) (hr : r ∈ prog)
    (hguard : mode.guarded = true → r.arity ≤ argumentRegisters.length) {stack : Stack}
    (hc : Machine.entered stack = (.ok (), c)) (hx : code.Runs n ⟨start prog r.name, c, host⟩ x)
    {name : String} {address : Nat} {targets : List Target}
    (hcell : code.cells[x.pc]? = some (.call (.label name address :: targets))) :
    ∃ s f k q, Running prog mode s x ∧ s.rest = .op (.call f) :: k ∧ prog.find? (·.name == f) = some q := by
  rcases between_or_running himp hin hr hguard hc hx with hbetween | ⟨s, m, y, htracks⟩
  · obtain ⟨o, args, hdata⟩ := hbetween.cell himp
    rw [hcell] at hdata
    cases hdata
  · have hs := htracks.last
    obtain ⟨k, hk, rfl | ⟨o, k, rfl⟩⟩ := hs.pass_labels hin
    · have hexit := himp.cell_of_exit hs.located.routine (show 0 < exitWidth by decide)
      rw [Nat.add_zero, ← show x.pc = pcOf prog s.routine [] from hk.represents.pc, hcell] at hexit
      cases hexit
    · have hop := himp.cell_of_op hs.located.routine hk.located.rest
      rw [← show x.pc = pcOf prog s.routine (.op o :: k) from hk.represents.pc, hcell] at hop
      cases o with
      | call f =>
        cases hf : prog.find? (·.name == f) with
        | some q => exact ⟨_, f, k, q, hk, rfl, hf⟩
        | none => simp [Op.cell, hf] at hop
      | _ => cases hop

end Places

variable {source : String} {p : Program} {a : Analysis} {m m' : Module}

/-- **Calls are transparent to the caller.** In every run from a function of a compiled module, reduced or
not, a call of a function of the module that comes back does so behind the call, with the stack pointer, the
frame pointer and the other registers that functions keep as they were, and so every word of the stack from
the stack pointer upwards. -/
theorem calls_transparent (h : Compiled source p a m) (hlen : source.length < 2 ^ 55) (hm : m.Variant m')
    {f : Func} (hf : f ∈ p.functions) (stack : Stack) (host : σ) :
    ∃ code pc cpu, Code.ofModule m' = .ok code ∧ code.labels.get? f.name.name = some pc ∧
      Machine.entered stack = (.ok (), cpu) ∧
      ∀ n x z, code.Runs n ⟨pc, cpu, host⟩ x → code.ComesBack x z → z.pc = x.pc + 1 ∧ x.cpu.Kept z.cpu := by
  have hmode : p.Allows ⟨false, false, false⟩ := ⟨nofun, nofun⟩
  obtain ⟨prog, k, code, hcode, -, hbuilds⟩ := h.builds hmode (h.instructionCount_lt hlen)
  obtain ⟨prog', code', hbuilt, hturned⟩ := hbuilds m' hm
  obtain ⟨r, hr, hname, -⟩ := hcode.exists_routine hf
  obtain ⟨r', hr', hname', -⟩ := hturned.exists_routine hr
  obtain ⟨cpu, hcpu, -⟩ := entering_outermost prog' stack
  rw [← hname, ← hname']
  refine ⟨code', _, cpu, hbuilt.made, hbuilt.implements.labels r' hr', hcpu, fun n x z hx hback => ?_⟩
  obtain ⟨name, address, targets, hcell⟩ := hback.called
  obtain ⟨s, g, k, q, hs, hrest, hg⟩ :=
    running_of_call hbuilt.implements hbuilt.inOrder hr' nofun hcpu hx hcell
  exact hs.kept hbuilt.implements hbuilt.inOrder hrest hg hback

theorem back_sample : ((sampleCode.first? (·.pc = 84) 30 sampleStart).bind fun x =>
    (sampleCode.comeBack? 140 x).map (·.cpu.get .rax)) = some 7 := by
  decide +kernel

theorem calls_transparent_sample : ∃ code pc cpu n x z, Code.ofModule sampleModule = .ok code ∧
    code.labels.get? Compilation.entryPoint = some pc ∧ Machine.entered (.replicate stackWords 0) = (.ok (), cpu) ∧
      code.Runs n ⟨pc, cpu, (⟨[], ""⟩ : Script)⟩ x ∧ code.ComesBack x z ∧ z.cpu.get .rax = 7 ∧
        z.pc = x.pc + 1 ∧ x.cpu.Kept z.cpu := by
  have hmain : sampleMain ∈ sampleProgram.functions := List.mem_cons_of_mem _ List.mem_cons_self
  obtain ⟨code, pc, cpu, hcode, hpc, hcpu, hkept⟩ := calls_transparent compiled_sample
    (Nat.lt_trans length_sample (by decide)) .same hmain (.replicate stackWords 0) (⟨[], ""⟩ : Script)
  obtain rfl := Except.ok.inj (code_sample.symm.trans hcode)
  obtain ⟨x, hx, hback⟩ := Option.bind_eq_some_iff.1 back_sample
  obtain ⟨z, hz, hvalue⟩ := Option.map_eq_some_iff.1 hback
  obtain ⟨-, n, hn, -⟩ := Code.first?_eq_some hx
  rw [← eq_sampleStart hpc hcpu] at hn
  have hback := Code.comesBack_of_comeBack? hz
  exact ⟨_, pc, cpu, n, x, z, hcode, hpc, hcpu, hn, hback, hvalue, hkept n x z hn hback⟩

end MicroC
