import MicroC.Proofs.Analysis.Arrangement
import MicroC.Proofs.Compilation.Linking
import MicroC.Proofs.Compilation.Lowering
import MicroC.Proofs.Compilation.Runs
import MicroC.Proofs.Emission.Arrangement
import MicroC.Proofs.Parser.Arrangement
import MicroC.Proofs.Peephole.Renumbering
import MicroC.Proofs.Routine.Renaming

/-!
# Programs in another order

Functions are compiled independently of their order. A source with its functions in another order is accepted or
rejected like the first one, each function has the same blocks, and runs come to the same.

* `Reordered`: modules with the same blocks for each function, up to the numbers of labels.
* `RunsAlike`: modules whose runs come to the same.
* `Compiled.reordered`: what is generated for the same functions in another order.
* **`compiled_reordered`**: what is compiled from sources with their functions in another order.
-/

namespace MicroC

open Convention Code Grammar Emit

/-! ## Trees -/

section Trees

variable {R : NodeId → NodeId → Prop}

mutual

theorem Stmt.Like.initialised_eq {s s' : Stmt} (h : Stmt.Like R s s') : s'.initialised = s.initialised := by
  match h with
  | .empty | .ret | .retValue _ | .expr _ | .decl _ | .init _ _ | .array _ _ => rfl
  | .ifThen _ hx => exact hx.initialised_eq
  | .ifElse _ hx hy => exact congrArg₂ _ hx.initialised_eq hy.initialised_eq
  | .loop _ hx => exact hx.initialised_eq
  | .block hxs => exact hxs.initialised_eq

theorem Stmt.LikeList.initialised_eq {ss ss' : List Stmt} (h : Stmt.LikeList R ss ss') :
    Stmt.initialisedAll ss' = Stmt.initialisedAll ss := by
  match h with
  | .nil => rfl
  | .cons hx hxs => exact congrArg₂ _ hx.initialised_eq hxs.initialised_eq

end

theorem initialised_of_likes {p p' : Program} (h : List.Forall₂ (Func.Like R) p.functions p'.functions) :
    p'.initialised = p.initialised := by
  unfold Program.initialised
  generalize p.functions = fs, p'.functions = fs' at h
  induction h with
  | nil => rfl
  | cons hf _ ih => rw [List.all_cons, List.all_cons, hf.body.initialised_eq, ih]

/-- The functions of a program in the order in which another one has the same functions. -/
theorem exists_arranged {p p' : Program} (h : p'.routines.Perm p.routines) :
    ∃ q : Program, p'.functions.Perm q.functions ∧ q.routines = p.routines := by
  have hfs : List.Forall₂ (fun f x => Func.routine f = x) p'.functions p'.routines :=
    List.forall₂_map_right_iff.2 (List.forall₂_same.2 fun _ _ => rfl)
  have hcomp : Relation.Comp (List.Forall₂ fun f x => Func.routine f = x) List.Perm p'.functions p.routines :=
    ⟨_, hfs, h⟩
  rw [List.forall₂_comp_perm_eq_perm_comp_forall₂] at hcomp
  obtain ⟨fs, hperm, hfs⟩ := hcomp
  refine ⟨⟨p.site, fs⟩, hperm, ?_⟩
  exact List.forall₂_eq_eq_eq ▸ List.forall₂_map_left_iff.2 hfs

end Trees

/-! ## Blocks of functions -/

/-- Blocks from the one with the name of a function to its exit, with numbered labels in between. -/
def Encloses (name : String) (bs : List Block) : Prop :=
  ∃ first inner last, bs = first :: (inner ++ [last]) ∧ first.name = name ∧ last.name = exitLabel name ∧
    ∀ b ∈ inner, ∃ n s, b.name = labelName n s ∧ '.' ∉ s.toList

section Encloses

variable {name : String} {bs : List Block}

theorem RoutineCode.encloses {c : Meaning} {n n' : Nat} {f : Func} {q : Subroutine} (h : RoutineCode c n f q n')
    (hq : q.Spelled bs) : Encloses f.name.name bs := by
  obtain ⟨hname, hfresh⟩ := h.fresh
  obtain @⟨first, last, entry, code, inner, hfirst, hcode, hentry, hbody, hlast, hexit⟩ := hq
  refine ⟨first, inner, last, rfl, hfirst.trans hname, hlast.trans (congrArg exitLabel hname), fun b hb => ?_⟩
  have hmem : b.name ∈ (labels q.body).map Prod.fst := hbody.names ▸ List.mem_map_of_mem hb
  obtain ⟨i, s, hl, -, -, hs⟩ := hfresh.named _ hmem
  exact ⟨i, s, hl, hs⟩

theorem Encloses.map (h : Encloses name bs) {f : Block → Block} (hf : ∀ b, (f b).name = b.name) :
    Encloses name (bs.map f) := by
  obtain ⟨first, inner, last, rfl, hfirst, hlast, hinner⟩ := h
  refine ⟨f first, inner.map f, f last, by simp, (hf _).trans hfirst, (hf _).trans hlast, ?_⟩
  refine List.forall_mem_map.2 fun b hb => ?_
  rw [hf]
  exact hinner b hb

theorem Encloses.renumber (h : Encloses name bs) (hname : IsName name) (r : Nat → Nat) :
    Encloses name (bs.map (Block.renumber r)) := by
  obtain ⟨first, inner, last, rfl, hfirst, hlast, hinner⟩ := h
  refine ⟨first.renumber r, inner.map (Block.renumber r), last.renumber r, by simp, ?_, ?_, ?_⟩
  · exact (congrArg (renumberLabel r) hfirst).trans (renumberLabel_of_none r hname.labelParts?)
  · exact (congrArg (renumberLabel r) hlast).trans (renumberLabel_of_none r (labelParts?_exitLabel name))
  · refine List.forall_mem_map.2 fun b hb => ?_
    obtain ⟨n, s, hb, hs⟩ := hinner b hb
    exact ⟨r n, s, (congrArg (renumberLabel r) hb).trans (renumberLabel_labelName r n hs), hs⟩

theorem Encloses.name_eq (h : Encloses name bs) {q : Subroutine} (hq : q.Spelled bs) : q.name = name := by
  obtain ⟨first, inner, last, hbs, hfirst, -⟩ := h
  obtain @⟨first', last', entry, code, inner', hfirst', -⟩ := hq
  rw [← hfirst, ← hfirst', (List.cons.inj hbs).1]

/-- Only the first one of the blocks of a function can be the start of a function. -/
theorem Encloses.eq_of_mem (h : Encloses name bs) {l : String} (hl : IsName l) (hmem : l ∈ bs.map Block.name) :
    l = name := by
  obtain ⟨first, inner, last, rfl, hfirst, hlast, hinner⟩ := h
  obtain ⟨b, hb, rfl⟩ := List.mem_map.1 hmem
  rcases List.mem_cons.1 hb with rfl | hb
  · exact hfirst
  rcases List.mem_append.1 hb with hb | hb
  · obtain ⟨n, s, hb, -⟩ := hinner b hb
    exact absurd hb (hl.ne_labelName n s)
  · rw [List.mem_singleton.1 hb] at hl
    exact absurd hlast (hl.ne_exitLabel name)

theorem LaidOut.encloses {a : Analysis} {arityOf : String → Option Nat} {n n' : Nat} {xs : List (Func × List Block)}
    (h : LaidOut a arityOf n xs n') : ∀ x ∈ xs, Encloses x.1.name.name x.2 := by
  induction h with
  | nil => nofun
  | cons hf _ ih =>
    obtain ⟨q, hcode, hspelled⟩ := hf.coded
    exact List.forall_mem_cons.2 ⟨hcode.encloses hspelled, ih⟩

end Encloses

/-- Two modules whose functions have the same blocks, up to the numbers of labels: `part` says which blocks a function
has in the first one, and `r` which number of the second one stands for a number of the first one. -/
structure Reordered (p p' : Program) (m m' : Module) (part : String → List Block) (r : Nat → Nat) : Prop where
  injective : Function.Injective r
  encloses : ∀ f ∈ p.functions, Encloses f.name.name (part f.name.name)
  blocks : m.blocks = p.functions.flatMap fun f => part f.name.name
  blocks' : m'.blocks = p'.functions.flatMap fun f => (part f.name.name).map (Block.renumber r)

/-- Runs from a label come to the same for both modules, whatever the host and the limit on the number of steps: the
same result, with the same host, in the same number of steps. -/
def RunsAlike (m m' : Module) (entry : String) : Prop :=
  ∀ {σ : Type} [Host σ] (host : σ) (limit : Nat), ∃ machine machine' : Machine σ,
    Machine.ofModule m host limit = .ok machine ∧ Machine.ofModule m' host limit = .ok machine' ∧
      let x := machine.run entry
      let y := machine'.run entry
      y.1 = x.1 ∧ y.2.host = x.2.host ∧ y.2.steps = x.2.steps

section Programs

variable {source source' : String} {p p' : Program} {a : Analysis} {m m' : Module} {mode : Mode}
  {part : String → List Block} {r : Nat → Nat}

theorem map_name_routines (p : Program) : p.functions.map (·.name.name) = p.routines.map Routine.name := by
  rw [Program.routines, List.map_map]
  rfl

theorem map_part {α : Type} (g : String → α) {p q : Program} (h : q.routines = p.routines) :
    (q.functions.map fun f => g f.name.name) = p.functions.map fun f => g f.name.name := by
  have hmap : ∀ fs : List Func, (fs.map fun f => g f.name.name) = (fs.map (·.name.name)).map g :=
    fun fs => List.map_map.symm
  rw [hmap, hmap, map_name_routines, map_name_routines, h]

theorem exists_part {xs : List (Func × List Block)} (hn : (xs.map (·.1.name.name)).Nodup) :
    ∃ part : String → List Block, ∀ x ∈ xs, x.2 = part x.1.name.name := by
  refine ⟨fun n => ((xs.find? (·.1.name.name == n)).map Prod.snd).getD [], fun x hx => ?_⟩
  dsimp only
  rw [(find?_eq_some_iff hn).2 ⟨hx, rfl⟩]
  rfl

/-- **The same functions in another order** are accepted, and have the same blocks. -/
theorem Compiled.reordered (h : Compiled source p a m) (h' : parseProgram source' = .ok p')
    (hp : p'.routines.Perm p.routines) :
    ∃ a' m' part r, Compiled source' p' a' m' ∧ Reordered p p' m m' part r ∧
      (m.instructionCount < 2 ^ 59 → p.initialised = true →
        ∀ m₁, m.Variant m₁ → ∃ prog code, Built m₁ prog ⟨true, false, false⟩ code ∧
          prog.map Subroutine.names = p.functions.map fun f => (part f.name.name).map Block.name) := by
  obtain ⟨q, hperm, htree⟩ := exists_arranged hp
  have hnodes := (hperm.flatMap_right Func.nodes).nodup (nodup_nodes_of_parseProgram h')
  -- In the order of the first program, functions differ from its own in numbers and places only.
  obtain ⟨R, hR, hlikes⟩ := (Func.likes_of_routines htree.symm).oneToOne
    (nodup_nodes_of_parseProgram h.parsed) hnodes
  obtain ⟨b, hb, hgenerate⟩ : ∃ b, analyze .runtime q = .ok b ∧ generate b q = .ok m := by
    rcases generatedAlike_of_like hR hlikes with ⟨e, -, he, -⟩ | ⟨a₁, b, ha₁, hb, hends⟩
    · rw [h.analysed] at he
      cases he
    rw [h.analysed] at ha₁
    cases ha₁
    rcases hends with ⟨e, -, he, -⟩ | ⟨m₁, hm₁, hm⟩
    · rw [h.generated] at he
      cases he
    rw [h.generated] at hm₁
    cases hm₁
    exact ⟨b, hb, hm⟩
  obtain ⟨hd, hcalled⟩ := called_of_analyze hb hnodes
  have harity := resolves_of_declared hd
  have hnames : ∀ f ∈ q.functions, IsName f.name.name := fun f hf => parseProgram_names h' f (hperm.mem_iff.2 hf)
  -- The rest is a matter of order.
  obtain ⟨a', ha', hlike⟩ := analyze_arranged hperm.symm hnodes hb
  obtain ⟨b', hb', hself⟩ := analyze_arranged (.refl q.functions) hnodes hb
  obtain rfl : b = b' := Except.ok.inj (hb.symm.trans hb')
  obtain ⟨m', xs, xs', r, n, hm', hlaid, hfst, hblocks, hfst', hblocks', hr, hxs⟩ :=
    generate_arranged hlike hself harity hperm.symm (fun f hf => ⟨hnames f hf, hcalled f hf⟩) hgenerate
  have hkeys : xs.map (·.1.name.name) = q.functions.map (·.name.name) := by
    rw [← hfst, List.map_map]
    rfl
  obtain ⟨part, hpart⟩ := exists_part (hkeys ▸ hd.names)
  have hflat : (xs.flatMap fun x => part x.1.name.name) = p.functions.flatMap fun f => part f.name.name := by
    rw [List.flatMap_def, List.flatMap_def, ← map_part part htree, ← hfst, List.map_map]
    rfl
  have hflat' : (xs'.flatMap Prod.snd) = p'.functions.flatMap fun f => (part f.name.name).map (Block.renumber r) := by
    rw [← hfst', List.flatMap_map]
    refine List.flatMap_congr fun x hx => ?_
    obtain ⟨y, hy, rfl⟩ := List.mem_map.1 (hxs.mem_iff.2 hx)
    exact congrArg (List.map (Block.renumber r)) (hpart y hy)
  refine ⟨a', m', part, r, ⟨h', ha', hm'⟩, ⟨hr.injective, fun f hf => ?_, ?_, hblocks'.trans hflat'⟩, ?_⟩
  · have hmem : f.name.name ∈ xs.map (·.1.name.name) := by
      rw [hkeys, map_name_routines, htree, ← map_name_routines]
      exact List.mem_map_of_mem (f := fun f : Func => f.name.name) hf
    obtain ⟨x, hx, hname⟩ := List.mem_map.1 hmem
    have hwhole := hlaid.encloses x hx
    rwa [hpart x hx, hname] at hwhole
  · exact hblocks.trans ((List.flatMap_congr hpart).trans hflat)
  · intro hsize hinit m₁ hm₁
    obtain ⟨prog, hcode, hspelled⟩ := hlaid.coded
    rw [hfst] at hcode
    have hall : Spelled prog m.blocks := hblocks ▸ List.flatMap_def ▸ .of_parts hspelled
    have hmode : q.Allows ⟨true, false, false⟩ := ⟨fun _ => (initialised_of_likes hlikes).trans hinit, nofun⟩
    obtain ⟨-, -, hbuilds⟩ := hcode.builds hall (wellNamed_of_programCode hcode hnames hd) hmode hsize
    obtain ⟨prog', code, hbuilt, hturned⟩ := hbuilds m₁ hm₁
    refine ⟨prog', code, hbuilt, hturned.map_names.trans ?_⟩
    rw [map_names_of_parts hspelled, ← map_part (fun n => (part n).map Block.name) htree, ← hfst, List.map_map,
      List.map_map]
    exact List.map_congr_left fun x hx => congrArg (List.map Block.name) (hpart x hx)

/-! ## Reduced modules -/

/-- What is left of the module of a source. -/
def CompileOptions.reduce (options : CompileOptions) (m : Module) : Module :=
  if options.optimise then (m.optimise options.reductions).1 else m

theorem CompileOptions.variant (options : CompileOptions) (m : Module) : m.Variant (options.reduce m) := by
  unfold reduce
  split
  · exact .reduced _
  · exact .same

/-- Options do the same to every block, whatever its labels and wherever it stands. -/
theorem CompileOptions.exists_map (options : CompileOptions) (m m' : Module) :
    ∃ f : Block → Block, (∀ b, (f b).name = b.name) ∧ (∀ r, Function.Commute f (Block.renumber r)) ∧
      (options.reduce m).blocks = m.blocks.map f ∧ (options.reduce m').blocks = m'.blocks.map f := by
  unfold reduce
  split
  · obtain ⟨k, hk⟩ := optimiseBlocks_eq_map options.reductions m.blocks
    obtain ⟨k', hk'⟩ := optimiseBlocks_eq_map options.reductions m'.blocks
    refine ⟨(reduceBlock options.reductions)^[max k k'], fun b => ?_, fun r => ?_, hk _ (Nat.le_max_left _ _),
      hk' _ (Nat.le_max_right _ _)⟩
    · induction max k k' with
      | zero => rfl
      | succ n ih => rw [Function.iterate_succ_apply', name_reduceBlock, ih]
    · exact (reduceBlock_renumber r options.reductions).iterate_left _
  · exact ⟨id, fun _ => rfl, fun _ _ => rfl, (List.map_id _).symm, (List.map_id _).symm⟩

theorem CompileOptions.map_name_blocks (options : CompileOptions) (m : Module) :
    (options.reduce m).blocks.map Block.name = m.blocks.map Block.name := by
  obtain ⟨f, hname, -, hm, -⟩ := options.exists_map m m
  rw [hm, List.map_map]
  exact List.map_congr_left fun b _ => hname b

theorem Reordered.reduce (h : Reordered p p' m m' part r) (options : CompileOptions) :
    ∃ part', Reordered p p' (options.reduce m) (options.reduce m') part' r ∧
      ∀ n, (part' n).map Block.name = (part n).map Block.name := by
  obtain ⟨f, hname, hcommute, hm, hm'⟩ := options.exists_map m m'
  refine ⟨fun n => (part n).map f, ⟨h.injective, fun g hg => (h.encloses g hg).map hname, ?_, ?_⟩, fun n => ?_⟩
  · rw [hm, h.blocks, List.map_flatMap]
  · rw [hm', h.blocks', List.map_flatMap]
    refine List.flatMap_congr fun g _ => ?_
    rw [List.map_map, List.map_map, (hcommute r).comp_eq]
  · rw [List.map_map]
    exact List.map_congr_left fun b _ => hname b

/-! ## Runs -/

section Runs

variable {prog : List Subroutine} {code : Code} {entry : String}

theorem Built.get?_labels (hb : Built m prog mode code) (h : entry ∉ m.blocks.map Block.name) :
    code.labels.get? entry = none := by
  obtain ⟨cells, -, rfl⟩ := ofModule_eq_ok hb.made
  have hnames := hb.spelled.names_eq
  refine (get?_labelsFrom (hnames ▸ hb.named.nodup) (hnames ▸ hb.named.ne_empty) 0 .empty entry).trans ?_
  rw [offset?_eq_none h]
  rfl

namespace Reordered

variable (h : Reordered p p' m m' part r)
include h

/-- The routines of the first module with the blocks of their functions. -/
theorem spelled (hb : Built m prog mode code)
    (hnames : prog.map Subroutine.names = p.functions.map fun f => (part f.name.name).map Block.name) :
    List.Forall₂ (fun n q => q.name = n ∧ q.Spelled (part n)) (p.functions.map (·.name.name)) prog := by
  have hsplit : List.Forall₂ Subroutine.Spelled prog (p.functions.map fun f => part f.name.name) := by
    refine hb.spelled.split (h.blocks.trans List.flatMap_def) ?_
    rw [hnames, List.map_map]
    rfl
  have hboth : List.Forall₂ (fun f q => Encloses f.name.name (part f.name.name) ∧ q.Spelled (part f.name.name))
      p.functions prog := (List.forall₂_and_left _ _).2 ⟨h.encloses, (List.forall₂_map_right_iff.1 hsplit).flip⟩
  exact List.forall₂_map_left_iff.2 (hboth.imp fun f q hf => ⟨hf.1.name_eq hf.2, hf.2⟩)

theorem exists_routine (hb : Built m prog mode code)
    (hnames : prog.map Subroutine.names = p.functions.map fun f => (part f.name.name).map Block.name) {f : Func}
    (hf : f ∈ p.functions) : ∃ q ∈ prog, q.name = f.name.name := by
  have hsame := (h.spelled hb hnames).imp fun n q hq => hq.1.symm
  have hkeys : p.functions.map (·.name.name) = prog.map Subroutine.name :=
    List.forall₂_eq_eq_eq ▸ List.forall₂_map_right_iff.2 hsame
  exact List.mem_map.1 (hkeys ▸ List.mem_map_of_mem (f := fun f : Func => f.name.name) hf)

/-- Routines with the blocks of the second module. -/
theorem rearranged (hb : Built m prog mode code)
    (hnames : prog.map Subroutine.names = p.functions.map fun f => (part f.name.name).map Block.name)
    (hperm : (p'.functions.map (·.name.name)).Perm (p.functions.map (·.name.name)))
    (hfs : ∀ f ∈ p'.functions, IsName f.name.name) :
    ∃ prog', Spelled prog' m'.blocks ∧ Rearranged (renumberLabel r) prog prog' := by
  obtain ⟨qs, hqs, hqs'⟩ := List.perm_comp_forall₂ hperm (h.spelled hb hnames)
  refine ⟨qs.map (Subroutine.rename (renumberLabel r)), ?_, renumberLabel_injective h.injective, hqs'.map _,
    hb.implements.names⟩
  rw [h.blocks', List.flatMap_def]
  refine .of_parts (List.Forall₂.flip ?_)
  rw [List.forall₂_map_left_iff, List.forall₂_map_right_iff]
  have hboth := (List.forall₂_and_left _ _).2 ⟨hfs, List.forall₂_map_left_iff.1 hqs⟩
  exact hboth.imp fun f q hf => hf.2.2.renumber (hf.2.1 ▸ hf.1.labelParts?)

theorem exists_function (hentry : IsName entry) (hmem : entry ∈ m.blocks.map Block.name) :
    ∃ f ∈ p.functions, f.name.name = entry := by
  rw [h.blocks, List.map_flatMap] at hmem
  obtain ⟨f, hf, hmem⟩ := List.mem_flatMap.1 hmem
  exact ⟨f, hf, ((h.encloses f hf).eq_of_mem hentry hmem).symm⟩

theorem exists_function' (hperm : (p'.functions.map (·.name.name)).Perm (p.functions.map (·.name.name)))
    (hfs : ∀ f ∈ p'.functions, IsName f.name.name) (hentry : IsName entry) (hmem : entry ∈ m'.blocks.map Block.name) :
    ∃ f ∈ p.functions, f.name.name = entry := by
  rw [h.blocks', List.map_flatMap] at hmem
  obtain ⟨g, hg, hmem⟩ := List.mem_flatMap.1 hmem
  obtain ⟨f, hf, hname⟩ := List.mem_map.1 (hperm.mem_iff.1 (List.mem_map_of_mem (f := fun f : Func => f.name.name) hg))
  have hencloses := h.encloses f hf
  rw [hname] at hencloses
  exact ⟨f, hf, hname.trans ((hencloses.renumber (hfs g hg) r).eq_of_mem hentry hmem).symm⟩

/-- **Runs come to the same**, also if there is no function with the name. -/
theorem runsAlike (hb : Built m prog ⟨true, false, false⟩ code)
    (hnames : prog.map Subroutine.names = p.functions.map fun f => (part f.name.name).map Block.name)
    (hperm : (p'.functions.map (·.name.name)).Perm (p.functions.map (·.name.name)))
    (hfs : ∀ f ∈ p'.functions, IsName f.name.name) {rs : List Subroutine} (hnamed : WellNamed rs)
    (hrs : m'.blocks.map Block.name = rs.flatMap Subroutine.names) (hentry : IsName entry) : RunsAlike m m' entry := by
  obtain ⟨prog', hspelled, hrearranged⟩ := h.rearranged hb hnames hperm hfs
  have hin := hrearranged.inOrder hb.inOrder
  have hnamed' : WellNamed prog' := by
    have heq : prog'.flatMap Subroutine.names = rs.flatMap Subroutine.names :=
      hspelled.names_eq.symm.trans hrs
    exact ⟨heq ▸ hnamed.nodup, heq ▸ hnamed.ne_empty, heq ▸ hnamed.host⟩
  have hsize : m'.instructionCount < 2 ^ 59 := by
    rw [← blockWidth_blocks, hspelled.width_eq, hrearranged.programWidth]
    exact hb.implements.size
  have harity : ∀ q ∈ prog', q.arity < 2 ^ 59 := by
    intro q hq
    obtain ⟨q₀, hq₀, rfl⟩ := hrearranged.mem.1 hq
    exact hb.implements.arity q₀ hq₀
  obtain ⟨code', hof, himp⟩ := implements_of_spelled hspelled hnamed' hin hsize harity
  have hb' : Built m' prog' ⟨true, false, false⟩ code' := ⟨hspelled, hnamed', hof, himp, hin⟩
  intro σ _ host limit
  refine ⟨_, _, hb.machine host limit, hb'.machine host limit, ?_⟩
  by_cases hexists : ∃ f ∈ p.functions, f.name.name = entry
  · obtain ⟨f, hf, rfl⟩ := hexists
    obtain ⟨q, hq, hname⟩ := h.exists_routine hb hnames hf
    rw [← hname]
    exact Machine.run_together hrearranged.lockstep hb.implements hb'.implements hb.inOrder hb'.inOrder rfl hq
      (hrearranged.mem.2 ⟨q, hq, rfl⟩) rfl nofun nofun _ _ host limit 0 0
  · have hnone := hb.get?_labels fun hmem => hexists (h.exists_function hentry hmem)
    have hnone' := hb'.get?_labels fun hmem => hexists (h.exists_function' hperm hfs hentry hmem)
    dsimp only
    rw [Machine.run, Machine.run, hnone, hnone']
    exact ⟨rfl, rfl, rfl⟩

end Reordered

end Runs

/-! ## Sources -/

theorem isName_entryPoint : IsName Compilation.entryPoint :=
  ⟨'m', ['a', 'i', 'n'], rfl, rfl, List.all_eq_true.1 rfl⟩

/-- **The order of functions does not matter.** If a source is parsed, so is a source with its functions in another
order. Both compile or neither does, whatever the options. If they do, each function has the same blocks, reduced or
not, up to the numbers of labels, which are different for different ones. And if every variable has an initial value,
runs from the entry point come to the same, whatever the host and the limit on the number of steps. -/
theorem compiled_reordered {us : List Token} (h : parseProgram source = .ok p)
    (hu : Routines.Reordered (scan source).tokens us) (herr : (scan source').errors = [])
    (hts : SameText us (scan source').tokens) :
    ∃ p', parseProgram source' = .ok p' ∧ p'.routines.Perm p.routines ∧ ∀ options,
      ((∃ c, compile source options = .ok c) ↔ ∃ c', compile source' options = .ok c') ∧
      ∀ c c', compile source options = .ok c → compile source' options = .ok c' →
        (∃ part r, Reordered p p' c.module c'.module part r) ∧
          (source.length < 2 ^ 55 → p.initialised = true →
            RunsAlike c.module c'.module Compilation.entryPoint) := by
  obtain ⟨p', h', hp⟩ := parseProgram_reordered h hu herr hts
  refine ⟨p', h', hp, fun options => ⟨?_, fun c c' hc hc' => ?_⟩⟩
  · rw [exists_compile_iff, exists_compile_iff]
    constructor
    · rintro ⟨q, a, m, hm⟩
      obtain rfl : p = q := Except.ok.inj (h.symm.trans hm.parsed)
      obtain ⟨a', m', -, -, hm', -⟩ := hm.reordered h' hp
      exact ⟨p', a', m', hm'⟩
    · rintro ⟨q, a, m, hm⟩
      obtain rfl : p' = q := Except.ok.inj (h'.symm.trans hm.parsed)
      obtain ⟨a', m', -, -, hm', -⟩ := hm.reordered h hp.symm
      exact ⟨p, a', m', hm'⟩
  obtain ⟨q, m, hm, hmodule⟩ := compiled_of_compile hc
  obtain ⟨q', m', hm', hmodule'⟩ := compiled_of_compile hc'
  obtain rfl : p = q := Except.ok.inj (h.symm.trans hm.parsed)
  obtain rfl : p' = q' := Except.ok.inj (h'.symm.trans hm'.parsed)
  obtain ⟨a', m₁, part, r, hm₁, hreordered, hbuilds⟩ := hm.reordered h' hp
  obtain rfl : m' = m₁ := by
    obtain rfl := Except.ok.inj (hm'.analysed.symm.trans hm₁.analysed)
    exact Except.ok.inj (hm'.generated.symm.trans hm₁.generated)
  obtain ⟨part', hpart', hsame⟩ := hreordered.reduce options
  rw [show c.module = options.reduce m from hmodule, show c'.module = options.reduce m' from hmodule']
  refine ⟨⟨part', r, hpart'⟩, fun hlen hinit => ?_⟩
  obtain ⟨prog, code, hbuilt, hnames⟩ := hbuilds (hm.instructionCount_lt hlen) hinit _ (options.variant m)
  obtain ⟨rs, n, -, hspelled, hnamed, -⟩ := hm'.routines
  refine hpart'.runsAlike hbuilt ?_ ?_ (parseProgram_names h') hnamed ?_ ?_
  · simp only [hsame, hnames]
  · rw [map_name_routines, map_name_routines]
    exact hp.map Routine.name
  · rw [options.map_name_blocks, hspelled.names_eq]
  · exact isName_entryPoint

section Sample

/-- Two functions. -/
def pairSource : String := "int id(int x)\x7breturn x;\x7d int main()\x7breturn id(7);\x7d"

/-- The same functions in another order. -/
def swappedSource : String := "int main()\x7breturn id(7);\x7d int id(int x)\x7breturn x;\x7d"

theorem compiled_pairSource : ∃ p a m, Compiled pairSource p a m ∧ p.initialised = true := by
  have hparse : (parseProgram pairSource).toOption.any (fun p =>
      (analyze .runtime p).toOption.any (fun a => (generate a p).toOption.isSome) && p.initialised) = true := by
    cbv
  cases hp : parseProgram pairSource with
  | error e => rw [hp] at hparse; cases hparse
  | ok p =>
    rw [hp] at hparse
    obtain ⟨hanalysed, hinit⟩ := Bool.and_eq_true_iff.1 hparse
    cases ha : analyze .runtime p with
    | error e => rw [ha] at hanalysed; cases hanalysed
    | ok a =>
      rw [ha] at hanalysed
      exact ⟨p, a, _, ⟨hp, ha, eq_ok_get hanalysed⟩, hinit⟩

theorem reordered_pairSource : ∃ us, Routines.Reordered (scan pairSource).tokens us ∧
    SameText us (scan swappedSource).tokens := by
  have hx : Statement true false _ _ := .retValue (k := tokenAt .returnKw "return" 15) (t := tokenAt .semicolon ";" 23)
    rfl (.ofEquality (derives_name "x" 22)) rfl
  have hid : Routines true _ [_] := .cons (k := tokenAt .identifier "int" 1) (n := tokenAt .identifier "id" 5)
    (l := tokenAt .leftParen "(" 7) (r := tokenAt .rightParen ")" 13) (b := tokenAt .leftBrace "\x7b" 14)
    (e := tokenAt .rightBrace "\x7d" 24) rfl rfl rfl
    (.inr (.last (k := tokenAt .identifier "int" 8) (n := tokenAt .identifier "x" 12) rfl rfl)) rfl rfl
    (.cons hx .nil) rfl .nil
  have hcall : Derives .atom _ _ := .call (t := tokenAt .identifier "id" 44) (l := tokenAt .leftParen "(" 46)
    (r := tokenAt .rightParen ")" 48) rfl rfl (.last (.ofEquality (.ofComparison (.ofAdditive (.ofMultiplicative
      (.ofUnary (.ofExponent (.ofAtom (.int (t := tokenAt .intLiteral "7" 47) rfl))))))))) rfl
  have hreturn : Statement true false _ _ := .retValue (k := tokenAt .returnKw "return" 37)
    (t := tokenAt .semicolon ";" 49) rfl (.ofEquality (.ofComparison (.ofAdditive (.ofMultiplicative
      (.ofUnary (.ofExponent (.ofAtom hcall))))))) rfl
  have hmain : Routines true _ [_] := .cons (k := tokenAt .identifier "int" 26) (n := tokenAt .identifier "main" 30)
    (l := tokenAt .leftParen "(" 34) (r := tokenAt .rightParen ")" 35) (b := tokenAt .leftBrace "\x7b" 36)
    (e := tokenAt .rightBrace "\x7d" 50) rfl rfl rfl (.inl ⟨rfl, rfl⟩) rfl rfl (.cons hreturn .nil) rfl .nil
  refine ⟨_, ⟨[_, _], [_, _], ?_, rfl, .swap _ _ _,
    List.forall_mem_cons.2 ⟨⟨_, hid⟩, List.forall_mem_cons.2 ⟨⟨_, hmain⟩, nofun⟩⟩⟩, ?_⟩
  · decide +kernel
  · unfold SameText
    decide +kernel

theorem compiled_reordered_sample : ∃ p p' c c' part r, parseProgram pairSource = .ok p ∧
    parseProgram swappedSource = .ok p' ∧ p'.routines.Perm p.routines ∧ compile pairSource = .ok c ∧
      compile swappedSource = .ok c' ∧ Reordered p p' c.module c'.module part r ∧
        RunsAlike c.module c'.module Compilation.entryPoint := by
  obtain ⟨p, a, m, h, hinit⟩ := compiled_pairSource
  obtain ⟨us, hu, hts⟩ := reordered_pairSource
  obtain ⟨p', h', hperm, hall⟩ := compiled_reordered h.parsed hu (by decide +kernel) hts
  obtain ⟨hiff, hcompiled⟩ := hall {}
  obtain ⟨c, hc⟩ := exists_compile_iff.2 ⟨p, a, m, h⟩
  obtain ⟨c', hc'⟩ := hiff.1 ⟨c, hc⟩
  obtain ⟨⟨part, r, hreordered⟩, hruns⟩ := hcompiled c c' hc hc'
  exact ⟨p, p', c, c', part, r, h.parsed, h', hperm, hc, hc', hreordered, hruns (by decide +kernel) hinit⟩

end Sample

end Programs

end MicroC
