import MicroC.Proofs.Compilation.Routines
import MicroC.Proofs.Peephole.Optimiser

/-!
# The code of compiled modules

The module of a source has code, before and after its reductions, and that code consists of routines in
order: those of the functions, or what they are rewritten to.

* `Module.Variant`: a module, or what reductions make of it.
* `Built`: a module, its code and its routines.
* **`Compiled.builds`**: the code of compiled modules.
-/

namespace MicroC

open Convention

/-- A module, or what reductions make of it. -/
inductive Module.Variant (m : Module) : Module → Prop
  | same : m.Variant m
  | reduced (rs : Reductions) : m.Variant (m.optimise rs).1

/-- A module whose code consists of routines in order. -/
structure Built (m : Module) (prog : List Subroutine) (mode : Mode) (code : Code) : Prop where
  spelled : Spelled prog m.blocks
  named : WellNamed prog
  made : Code.ofModule m = .ok code
  implements : code.Implements prog
  inOrder : InOrder prog mode

theorem Module.blocks_optimise (rs : Reductions) (m : Module) :
    (m.optimise rs).1.blocks = (Module.optimiseBlocks rs m.blocks).1 := rfl

/-! ## Sizes -/

section Sizes

variable {base : List Subroutine} {mode : Mode} {prog prog' : List Subroutine}

theorem Turns.programWidth_le (h : Turns base mode prog prog') : programWidth prog' ≤ programWidth prog := by
  induction h with
  | nil => exact Nat.le_refl _
  | @cons r r' rs rs' ht _ ih =>
    obtain ⟨k, rfl, hk⟩ := ht
    have hle := hk.width_le
    simp only [programWidth, Subroutine.width]
    omega

theorem Turned.programWidth_le (h : Turned base mode prog prog') : programWidth prog' ≤ programWidth prog := by
  induction h with
  | refl => exact Nat.le_refl _
  | step ht _ ih => exact Nat.le_trans ih ht.programWidth_le

theorem Turned.arity_lt (h : Turned base mode prog prog') {n : Nat} (hp : ∀ r ∈ prog, r.arity < n) :
    ∀ r ∈ prog', r.arity < n := by
  induction h with
  | refl => exact hp
  | step ht _ ih =>
    refine ih fun r' hr' => ?_
    obtain ⟨r, hr, htwin⟩ := ht.mem hr'
    rw [htwin.arity]
    exact hp r hr

end Sizes

/-! ## Modules -/

variable {source : String} {p : Program} {a : Analysis} {m m' : Module} {mode : Mode}

theorem ProgramCode.exists_routine {c : Meaning} {n n' : Nat} {fs : List Func} {rs : List Subroutine}
    (h : ProgramCode c n fs rs n') {f : Func} (hf : f ∈ fs) :
    ∃ r ∈ rs, r.name = f.name.name ∧ r.arity = f.params.length := by
  induction h with
  | nil => cases hf
  | cons hr h ih =>
    rcases List.mem_cons.1 hf with rfl | hf
    · exact ⟨_, List.mem_cons_self, hr.eq.1, hr.eq.2.1⟩
    · obtain ⟨r, hr, heq⟩ := ih hf
      exact ⟨r, List.mem_cons_of_mem _ hr, heq⟩

/-- A module that spells the routines of a program has code, and so has what reductions make of it. -/
theorem ProgramCode.builds {prog : List Subroutine} {n : Nat}
    (hcode : ProgramCode ⟨a.symbols, p.arityOf⟩ 0 p.functions prog n) (hspelled : Spelled prog m.blocks)
    (hnamed : WellNamed prog) (hmode : p.Allows mode) (hsize : m.instructionCount < 2 ^ 59) :
    ∃ code, Built m prog mode code ∧
      ∀ m', m.Variant m' → ∃ prog' code', Built m' prog' mode code' ∧ Turned prog mode prog prog' := by
  have hwidth : programWidth prog < 2 ^ 59 := by
    rwa [← hspelled.width_eq, blockWidth_blocks]
  obtain ⟨hin, harity⟩ := hcode.inOrder hcode.arityOf hmode hwidth
  obtain ⟨code, hof, himp⟩ := implements_of_spelled hspelled hnamed hin hsize harity
  refine ⟨code, ⟨hspelled, hnamed, hof, himp, hin⟩, fun m' hm' => ?_⟩
  cases hm' with
  | same => exact ⟨prog, code, ⟨hspelled, hnamed, hof, himp, hin⟩, .refl _⟩
  | reduced rs =>
    obtain ⟨prog', hspelled', hturned⟩ := @Spelled.optimise prog mode _ _ rs hspelled hin.check
    have hin' := hturned.inOrder rfl hin
    have hsize' : (m.optimise rs).1.instructionCount < 2 ^ 59 := by
      rw [← blockWidth_blocks, Module.blocks_optimise, hspelled'.width_eq]
      exact Nat.lt_of_le_of_lt hturned.programWidth_le hwidth
    have hnamed' := hturned.wellNamed hnamed
    obtain ⟨code', hof', himp'⟩ := implements_of_spelled (m := (m.optimise rs).1) hspelled' hnamed' hin' hsize'
      (hturned.arity_lt harity)
    exact ⟨prog', code', ⟨hspelled', hnamed', hof', himp', hin'⟩, hturned⟩

/-- **The module of a source has code, and so has what reductions make of it.** -/
theorem Compiled.builds (h : Compiled source p a m) (hmode : p.Allows mode)
    (hsize : m.instructionCount < 2 ^ 59) :
    ∃ prog n code, ProgramCode ⟨a.symbols, p.arityOf⟩ 0 p.functions prog n ∧ Built m prog mode code ∧
      ∀ m', m.Variant m' → ∃ prog' code', Built m' prog' mode code' ∧ Turned prog mode prog prog' := by
  obtain ⟨prog, n, hcode, hspelled, hnamed, -⟩ := h.routines
  obtain ⟨code, hbuilt, hbuilds⟩ := hcode.builds hspelled hnamed hmode hsize
  exact ⟨prog, n, code, hcode, hbuilt, hbuilds⟩

end MicroC
