import MicroC.Compilation
import MicroC.Proofs.Emission.Names
import MicroC.Proofs.Routine.Decoding

/-!
# Compiled programs

* `Compiled`: a source, its program, what the analysis found out and its module.
* `Compiled.routines`: the module spells the routines of the functions.
* **`Compiled.inOrder`**: these routines are in order.
-/

namespace MicroC

open Convention

/-- The module of a source before any reduction. -/
structure Compiled (source : String) (p : Program) (a : Analysis) (m : Module) : Prop where
  parsed : parseProgram source = .ok p
  analysed : analyze .runtime p = .ok a
  generated : generate a p = .ok m

/-- What a compilation yields is the module of its source, reduced if that was asked for. -/
theorem compiled_of_compile {source : String} {options : CompileOptions} {c : Compilation}
    (h : compile source options = .ok c) :
    ∃ p m, Compiled source p c.analysis m ∧
      c.module = if options.optimise then (m.optimise options.reductions).1 else m := by
  unfold compile at h
  split at h
  · cases h
  · next p hp =>
    split at h
    · cases h
    · next a ha =>
      split at h
      · cases h
      · next m hm =>
        dsimp only at h
        split at h
        · next ho =>
          cases h
          exact ⟨p, m, ⟨hp, ha, hm⟩, (if_pos ho).symm⟩
        · next ho =>
          cases h
          exact ⟨p, m, ⟨hp, ha, hm⟩, (if_neg ho).symm⟩

/-- A source compiles if it has a module, whatever is done with that. -/
theorem exists_compile_iff {source : String} {options : CompileOptions} :
    (∃ c, compile source options = .ok c) ↔ ∃ p a m, Compiled source p a m := by
  constructor
  · rintro ⟨c, hc⟩
    obtain ⟨p, m, h, -⟩ := compiled_of_compile hc
    exact ⟨p, _, m, h⟩
  · rintro ⟨p, a, m, h⟩
    rw [compile, h.parsed]
    dsimp only
    rw [h.analysed]
    dsimp only
    rw [h.generated]
    dsimp only
    split <;> exact ⟨_, rfl⟩

/-- How many calls stand inside one another in a program. -/
def Program.callDepth (p : Program) : Nat :=
  p.functions.foldr (fun f d => max (Stmt.callDepthAll f.body) d) 0

theorem Program.callDepth_le {p : Program} {f : Func} (h : f ∈ p.functions) :
    Stmt.callDepthAll f.body ≤ p.callDepth := by
  unfold Program.callDepth
  generalize p.functions = fs at h
  induction fs with
  | nil => cases h
  | cons g fs ih =>
    rw [List.foldr_cons]
    rcases List.mem_cons.1 h with rfl | h
    · exact Nat.le_max_left _ _
    · exact Nat.le_trans (ih h) (Nat.le_max_right _ _)

/-! ## Calls -/

theorem RoutineCode.eq {c : Meaning} {n n' : Nat} {f : Func} {r : Subroutine} (h : RoutineCode c n f r n') :
    r.name = f.name.name ∧ r.arity = f.params.length ∧ f.params.length ≤ width r.body := by
  cases h with
  | mk hs =>
    refine ⟨rfl, rfl, ?_⟩
    rw [width_append, width_spillItems]
    exact Nat.le_add_right _ _

theorem ProgramCode.find? {c : Meaning} {n n' : Nat} {fs : List Func} {rs : List Subroutine}
    (h : ProgramCode c n fs rs n') (name : String) :
    (rs.find? (·.name == name)).map Subroutine.arity =
      (fs.find? (·.name.name == name)).map fun f => f.params.length := by
  induction h with
  | nil => rfl
  | cons hf _ ih =>
    obtain ⟨hname, harity, -⟩ := hf.eq
    rw [List.find?_cons, List.find?_cons, hname]
    split
    · rw [Option.map_some, Option.map_some, harity]
    · exact ih

theorem ProgramCode.arityOf {c : Meaning} {n n' : Nat} {p : Program} {rs : List Subroutine}
    (h : ProgramCode c n p.functions rs n') : MicroC.arityOf rs = p.arityOf := by
  funext name
  have hfind := h.find? name
  unfold MicroC.arityOf Program.arityOf Program.find?
  cases hr : rs.find? (·.name == name) with
  | some r =>
    rw [hr] at hfind
    cases hf : p.functions.find? (·.name.name == name) with
    | some f =>
      rw [hf] at hfind
      exact hfind
    | none =>
      rw [hf] at hfind
      cases hfind
  | none =>
    rw [hr] at hfind
    cases hf : p.functions.find? (·.name.name == name) with
    | some f =>
      rw [hf] at hfind
      cases hfind
    | none => rfl

/-- The functions that the tables know take the number of arguments that the program says. -/
theorem resolves_of_declared {p : Program} {a : Analysis}
    (hd : Declared .runtime p.functions a.functions) : Resolves a p.arityOf := by
  intro n s hs hret hparams
  unfold Program.arityOf Program.find?
  rcases (hd.get? n s).1 hs with hold | ⟨f, hf, hname, hsigns⟩
  · -- A function of the runtime: none of the program has its name.
    have hnone : p.functions.find? (·.name.name == n) = none := by
      rw [List.find?_eq_none]
      intro f hf heq
      have := hd.fresh f hf
      rw [eq_of_beq heq, hold] at this
      cases this
    rw [hnone]
    rcases intrinsic_of_runtime hold with ⟨i, hi, harity⟩ | hfloat | ⟨ty, hty, htext⟩
    · dsimp only
      rw [hi, Option.map_some, harity]
    · rw [hfloat] at hret
      rcases hret with h | h <;> cases h
    · rcases hparams ty hty with rfl | rfl <;> rcases htext with h | h <;> cases h
  · -- Names of functions are different, so this one is found.
    have hfind : p.functions.find? (·.name.name == n) = some f := (find?_eq_some_iff hd.names).2 ⟨hf, hname⟩
    rw [hfind, hsigns.length_eq]

/-! ## Routines -/

variable {source : String} {p : Program} {a : Analysis} {m : Module}

theorem Compiled.called (h : Compiled source p a m) :
    Declared .runtime p.functions a.functions ∧
      ∀ f ∈ p.functions, Stmt.CalledAll a.functions a.types f.body :=
  called_of_analyze h.analysed (nodup_nodes_of_parseProgram h.parsed)

/-- **The module of a source spells the routines of its functions.** -/
theorem Compiled.routines (h : Compiled source p a m) :
    ∃ rs n, ProgramCode ⟨a.symbols, p.arityOf⟩ 0 p.functions rs n ∧ Spelled rs m.blocks ∧ WellNamed rs ∧
      List.Forall₂ (fun f r => f.Emits a r.names) p.functions rs := by
  obtain ⟨hd, hc⟩ := h.called
  obtain ⟨rs, n, hcode, hspelled, hemits⟩ := programCode_of_generate (resolves_of_declared hd) hc h.generated
  exact ⟨rs, n, hcode, hspelled, wellNamed_of_programCode hcode (parseProgram_names h.parsed) hd, hemits⟩

/-- A mode that the statements of a program allow. -/
structure Program.Allows (p : Program) (mode : Mode) : Prop where
  strict : mode.strict = true → p.initialised = true
  thin : mode.thin = true → mode.strict = true ∧ p.callDepth < slack

theorem width_le_programWidth {prog : List Subroutine} {r : Subroutine} (h : r ∈ prog) :
    width r.body ≤ programWidth prog := by
  induction prog with
  | nil => cases h
  | cons q rs ih =>
    rw [programWidth]
    rcases List.mem_cons.1 h with rfl | h
    · rw [Subroutine.width]
      omega
    · have := ih h
      omega

theorem ProgramCode.mem {c : Meaning} {n n' : Nat} {fs : List Func} {rs : List Subroutine}
    (h : ProgramCode c n fs rs n') {r : Subroutine} (hr : r ∈ rs) :
    ∃ f ∈ fs, ∃ k k', RoutineCode c k f r k' := by
  induction h with
  | nil => cases hr
  | cons hf _ ih =>
    rcases List.mem_cons.1 hr with rfl | hr
    · exact ⟨_, List.mem_cons_self, _, _, hf⟩
    · obtain ⟨f, hmem, hcode⟩ := ih hr
      exact ⟨f, List.mem_cons_of_mem _ hmem, hcode⟩

/-- **The routines of a program are in order.** -/
theorem ProgramCode.inOrder {c : Meaning} {n n' : Nat} {rs : List Subroutine} {mode : Mode}
    (h : ProgramCode c n p.functions rs n') (harity : MicroC.arityOf rs = c.arityOf)
    (hmode : p.Allows mode) (hsize : programWidth rs < 2 ^ 59) :
    InOrder rs mode ∧ ∀ r ∈ rs, r.arity < 2 ^ 59 := by
  refine ⟨⟨fun r hr => ?_, fun r hr => ?_⟩, fun r hr => ?_⟩
  · obtain ⟨f, hf, k, k', hcode⟩ := h.mem hr
    have hwidth := width_le_programWidth hr
    refine hcode.check harity ⟨fun hs => ?_, fun ht => ?_⟩ (by rw [wordLimit]; omega)
    · have := hmode.strict hs
      unfold Program.initialised at this
      exact List.all_eq_true.1 this f hf
    · obtain ⟨hs, hlt⟩ := hmode.thin ht
      exact ⟨hs, Nat.lt_of_le_of_lt (Program.callDepth_le hf) hlt⟩
  · obtain ⟨f, hf, k, k', hcode⟩ := h.mem hr
    exact hcode.fresh.2.nodup
  · obtain ⟨f, hf, k, k', hcode⟩ := h.mem hr
    obtain ⟨-, harity, hle⟩ := hcode.eq
    have hwidth := width_le_programWidth hr
    omega

end MicroC
