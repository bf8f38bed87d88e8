import MicroC.Proofs.Compilation.Runs
import MicroC.Proofs.Machine.Hosts
import MicroC.Proofs.Routine.Lockstep

/-!
# Runs after runs

The stack is not cleared between runs. A compiled program whose variables all have initial values does not
notice what is left there.

* `Machine.after`: a machine behind some runs.
* **`runs_isolated`**: a run of a compiled program does what it would do on a fresh machine.
-/

namespace MicroC

open Convention Code

variable {σ : Type} [Host σ]

namespace Machine

/-- A machine behind some runs, each from a label and with its own limit on the number of steps. -/
def after (m : Machine σ) (earlier : List (String × Nat)) : Machine σ :=
  earlier.foldl (fun m run => ({ m with stepLimit := run.2 }.run run.1).2) m

@[simp] theorem after_nil (m : Machine σ) : m.after [] = m := rfl

@[simp] theorem after_cons (m : Machine σ) (run : String × Nat) (earlier : List (String × Nat)) :
    m.after (run :: earlier) = ({ m with stepLimit := run.2 }.run run.1).2.after earlier := rfl

theorem code_run (m : Machine σ) (entry : String) : (m.run entry).2.code = m.code := by
  unfold run
  split
  · rfl
  · split <;> rfl

theorem code_after (m : Machine σ) (earlier : List (String × Nat)) : (m.after earlier).code = m.code := by
  induction earlier generalizing m with
  | nil => rfl
  | cons run earlier ih => rw [after_cons, ih, code_run]

end Machine

section Compiled

variable {source : String} {options : CompileOptions} {p : Program} {c : Compilation} {f : Func}

/-- A compiled program whose variables all have initial values has code in which no routine reads a word that
it has not written, and there is a routine for each function. -/
theorem built_of_compile (hparse : parseProgram source = .ok p) (hc : compile source options = .ok c)
    (hlen : source.length < 2 ^ 55) (hinit : p.initialised = true) :
    ∃ prog code, Built c.module prog ⟨true, false, false⟩ code ∧
      ∀ f ∈ p.functions, ∃ r ∈ prog, r.name = f.name.name := by
  obtain ⟨p', m, hcompiled, hmodule⟩ := compiled_of_compile hc
  obtain rfl : p = p' := Except.ok.inj (hparse.symm.trans hcompiled.parsed)
  have hvariant : m.Variant c.module := by
    rw [hmodule]
    split
    · exact .reduced _
    · exact .same
  have hmode : p.Allows ⟨true, false, false⟩ := ⟨fun _ => hinit, nofun⟩
  obtain ⟨prog, n, code, hcode, -, hbuilds⟩ := hcompiled.builds hmode (hcompiled.instructionCount_lt hlen)
  obtain ⟨prog', code', hbuilt, hturned⟩ := hbuilds c.module hvariant
  refine ⟨prog', code', hbuilt, fun f hf => ?_⟩
  obtain ⟨r, hr, hname, -⟩ := hcode.exists_routine hf
  obtain ⟨r', hr', hname', -⟩ := hturned.exists_routine hr
  exact ⟨r', hr', hname'.trans hname⟩

/-- **Runs do not notice earlier runs.** If a program compiles, reduced or not, and all its variables have
initial values, then whatever runs a machine has behind it, from whatever labels, with whatever limits and
however they ended, a run from a function comes to what it comes to on a fresh machine with the input that is
still unread: the same result, the same number of steps, the same input read, and the same text behind the
output that is there already. -/
theorem runs_isolated (hparse : parseProgram source = .ok p) (hc : compile source options = .ok c)
    (hlen : source.length < 2 ^ 55) (hinit : p.initialised = true) (hf : f ∈ p.functions) (script : Script)
    (earlier : List (String × Nat)) (firstLimit limit : Nat) :
    ∃ machine fresh : Machine Script, Machine.ofModule c.module script firstLimit = .ok machine ∧
      Machine.ofModule c.module ⟨(machine.after earlier).host.input, ""⟩ limit = .ok fresh ∧
      let used := { machine.after earlier with stepLimit := limit }
      let x := used.run f.name.name
      let y := fresh.run f.name.name
      x.1 = y.1 ∧ x.2.steps = y.2.steps ∧ x.2.host.input = y.2.host.input ∧
        x.2.host.output = used.host.output ++ y.2.host.output := by
  obtain ⟨prog, code, hbuilt, hroutines⟩ := built_of_compile hparse hc hlen hinit
  obtain ⟨r, hr, hname⟩ := hroutines f hf
  refine ⟨_, _, hbuilt.machine script firstLimit, hbuilt.machine _ limit, ?_⟩
  generalize hused : (Machine.mk code (.replicate stackWords 0) script firstLimit 0).after earlier = used
  have hcode : used.code = code := by
    rw [← hused, Machine.code_after]
  obtain ⟨usedCode, stack, ⟨input, output⟩, usedLimit, steps⟩ := used
  obtain rfl : usedCode = code := hcode
  dsimp only
  rw [← hname]
  -- On a cleared stack the run does the same, and there it does the same with no output yet.
  obtain ⟨hresult, hhost, hsteps⟩ := Machine.run_together (.refl prog) hbuilt.implements hbuilt.implements
    hbuilt.inOrder hbuilt.inOrder rfl hr hr rfl nofun nofun (.replicate stackWords 0) stack
    (⟨input, output⟩ : Script) limit 0 steps
  have hmap := Machine.run_map (Script.maps_behind output)
    ⟨usedCode, .replicate stackWords 0, ⟨input, ""⟩, limit, 0⟩ r.name
  have hbehind : Script.behind output ⟨input, ""⟩ = ⟨input, output⟩ := by
    rw [Script.behind, String.append_empty]
  rw [Machine.map, hbehind] at hmap
  rw [hresult, hhost, hsteps, hmap]
  exact ⟨rfl, rfl, rfl, rfl⟩

theorem runs_isolated_sample : ∃ p c f, parseProgram sampleSource = .ok p ∧ compile sampleSource = .ok c ∧
    p.initialised = true ∧ f ∈ p.functions ∧
    ∃ machine fresh : Machine Script, Machine.ofModule c.module ⟨[5], ""⟩ 3 = .ok machine ∧
      Machine.ofModule c.module ⟨(machine.after [("main", 3), ("nobody", 7)]).host.input, ""⟩ 100 = .ok fresh ∧
      let used := { machine.after [("main", 3), ("nobody", 7)] with stepLimit := 100 }
      let x := used.run f.name.name
      let y := fresh.run f.name.name
      x.1 = y.1 ∧ x.2.steps = y.2.steps ∧ x.2.host.input = y.2.host.input ∧
        x.2.host.output = used.host.output ++ y.2.host.output := by
  have hinit : sampleProgram.initialised = true := by decide +kernel
  have hmain : sampleMain ∈ sampleProgram.functions := List.mem_cons_of_mem _ List.mem_cons_self
  obtain ⟨c, hc⟩ : ∃ c, compile sampleSource = .ok c := exists_compile_iff.2 ⟨_, _, _, compiled_sample⟩
  exact ⟨_, c, _, parse_sample, hc, hinit, hmain, runs_isolated parse_sample hc
    (Nat.lt_trans length_sample (by decide)) hinit hmain ⟨[5], ""⟩ [("main", 3), ("nobody", 7)] 3 100⟩

end Compiled

end MicroC
