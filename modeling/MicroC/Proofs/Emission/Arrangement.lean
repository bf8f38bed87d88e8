import MicroC.Proofs.Emission.Names
import MicroC.Proofs.Emission.Renumbering
import MicroC.Proofs.Emission.Visits

/-!
# Functions in another order

From one function to the next only the counter of labels goes on. So a function has the same blocks behind other
functions, up to the numbers of its labels, and functions in another order have these blocks in another order.

* `Block.Within`: a block whose labels have numbers from one up to another.
* `Func.LaidOut`: the blocks of a function.
* `Func.LaidOut.shift`: they are the same with other numbers, wherever the function stands.
* `LaidOut`: functions one after the other, with the blocks of each.
* **`LaidOut.arranged`**: functions in another order.
* **`generate_arranged`**: programs with their functions in another order.
-/

namespace MicroC

open Emit

/-! ## Numbers in a block -/

/-- The labels that a block has and that it jumps to have numbers from `lo` up to `hi`, if they have any. -/
def Block.Within (lo hi : Nat) (b : Block) : Prop :=
  ∀ l, l = b.name ∨ (∃ i ∈ b.code, i.opcode.isJump = true ∧ l ∈ i.operands) →
    ∀ n s, labelParts? l = some (n, s) → lo ≤ n ∧ n < hi

namespace Block.Within

variable {lo hi lo' hi' : Nat} {b : Block} {r r' : Nat → Nat}

theorem mono (h : b.Within lo hi) (hlo : lo' ≤ lo) (hhi : hi ≤ hi') : b.Within lo' hi' := by
  intro l hl n s hparts
  obtain ⟨hle, hlt⟩ := h l hl n s hparts
  exact ⟨Nat.le_trans hlo hle, Nat.lt_of_lt_of_le hlt hhi⟩

theorem renumber_congr (h : b.Within lo hi) (hr : ∀ n, lo ≤ n → n < hi → r n = r' n) :
    b.renumber r = b.renumber r' := by
  have hlabel : ∀ l, l = b.name ∨ (∃ i ∈ b.code, i.opcode.isJump = true ∧ l ∈ i.operands) →
      renumberLabel r l = renumberLabel r' l := by
    intro l hl
    refine renumberLabel_congr fun n s hparts => ?_
    obtain ⟨hle, hlt⟩ := h l hl n s hparts
    exact hr n hle hlt
  have hcode : b.code.map (Instruction.renumber r) = b.code.map (Instruction.renumber r') := by
    refine List.map_congr_left fun i hi => ?_
    cases hjump : i.opcode.isJump with
    | false => rw [Instruction.renumber_of_not_jump r hjump, Instruction.renumber_of_not_jump r' hjump]
    | true =>
      have hoperands : i.operands.map (renumberLabel r) = i.operands.map (renumberLabel r') :=
        List.map_congr_left fun l hl => hlabel l (.inr ⟨i, hi, hjump, hl⟩)
      rw [Instruction.renumber, Instruction.renumber, hoperands]
  rw [Block.renumber, Block.renumber, hlabel b.name (.inl rfl), hcode]

theorem renumber_eq (h : b.Within lo hi) (hr : ∀ n, lo ≤ n → n < hi → r n = n) : b.renumber r = b :=
  (h.renumber_congr hr).trans b.renumber_id

end Block.Within

/-! ## One function -/

section Functions

variable {a : Analysis} {arityOf : String → Option Nat} {f : Func} {n n' : Nat} {bs : List Block} {l l' : Layout}

theorem function_eq_of_labels (a : Analysis) (f : Func) (h : l'.labels = l.labels) :
    Emit.function a f l' = Emit.function a f l := by
  unfold Emit.function
  show Emit.bind (Emit.modifyFrame fun _ => {}) _ l' = Emit.bind (Emit.modifyFrame fun _ => {}) _ l
  unfold Emit.bind Emit.modifyFrame
  rw [h]

theorem splitLines_append {lines rest : List Line} (h : splitLines rest = ([], bs)) :
    splitLines (lines ++ rest) = ((splitLines lines).1, (splitLines lines).2 ++ bs) := by
  induction lines with
  | nil => exact h
  | cons line lines ih => cases line <;> simp [splitLines, ih]

/-- The blocks of a function, with labels whose numbers go from one up to another. -/
structure Func.LaidOut (a : Analysis) (arityOf : String → Option Nat) (f : Func) (n : Nat) (bs : List Block)
    (n' : Nat) : Prop where
  emitted : ∀ l : Layout, l.labels = n → ∃ out, Emit.function a f l = .ok out ∧ out.layout.labels = n' ∧
    splitLines out.lines = ([], bs)
  coded : ∃ r, RoutineCode ⟨a.symbols, arityOf⟩ n f r n' ∧ r.Spelled bs

theorem Func.laidOut_of_emit (harity : Resolves a arityOf) {out : Emitted Unit}
    (hc : Stmt.CalledAll a.functions a.types f.body) (h : Emit.function a f l = .ok out) :
    ∃ bs, f.LaidOut a arityOf l.labels bs out.layout.labels ∧ splitLines out.lines = ([], bs) := by
  obtain ⟨r, hr, hlines⟩ := routineCode_of_emit harity hc h
  obtain ⟨bs, hspelled, hsplit⟩ := hlines [] [] rfl
  rw [List.append_nil, List.append_nil] at hsplit
  refine ⟨bs, ⟨fun l' hl' => ⟨out, ?_, rfl, hsplit⟩, r, hr, hspelled⟩, hsplit⟩
  rw [function_eq_of_labels a f hl', h]

/-- A function with what is known of it: it has a name, and its calls name functions that are known. -/
structure Func.Checked (a : Analysis) (f : Func) : Prop where
  named : IsName f.name.name
  called : Stmt.CalledAll a.functions a.types f.body

namespace Func.LaidOut

/-- The numbers of labels are those between. -/
theorem within (h : f.LaidOut a arityOf n bs n') (hname : IsName f.name.name) :
    n ≤ n' ∧ ∀ b ∈ bs, b.Within n n' := by
  obtain ⟨r, hcode, hspelled⟩ := h.coded
  obtain ⟨-, hnames⟩ := hcode.names hname
  have hrange : ∀ l ∈ r.names, ∀ i s, labelParts? l = some (i, s) → n ≤ i ∧ i < n' := by
    intro l hl i s hparts
    cases hnames l hl with
    | function hf =>
      rw [List.mem_singleton.1 hf, hname.labelParts?] at hparts
      cases hparts
    | exit =>
      rw [labelParts?_exitLabel] at hparts
      cases hparts
    | label hlo hhi hs =>
      rw [labelParts?_eq_some.2 ⟨rfl, hs⟩] at hparts
      cases hparts
      exact ⟨hlo, hhi⟩
  obtain ⟨m, hwalk⟩ := hcode.leveled
  refine ⟨hcode.fresh.2.le, fun b hb l hl => hrange l ?_⟩
  rcases hl with rfl | ⟨i, hi, hjump, hl⟩
  · rw [← hspelled.names_eq]
    exact List.mem_map_of_mem hb
  · obtain ⟨target, hoperands, hmem⟩ := hspelled.jumps (fun j l hj => hwalk.mem_labels hj) hb hi hjump
    rw [hoperands, List.mem_singleton] at hl
    exact hl ▸ hmem

/-- **A function has the same blocks wherever it stands**, but for the numbers of its labels. -/
theorem shift (ha : a.Like Eq a) (harity : Resolves a arityOf) (hf : f.Checked a) (h : f.LaidOut a arityOf n bs n')
    (m : Nat) : f.LaidOut a arityOf m (bs.map (Block.renumber fun i => i - n + m)) (n' - n + m) := by
  obtain ⟨out, hout, hn', hsplit⟩ := h.emitted ⟨{}, n⟩ rfl
  have hnumbers : ∀ k, (⟨{}, n⟩ : Layout).labels + k - n + m = (⟨{}, m⟩ : Layout).labels + k := by
    intro k
    dsimp only
    omega
  have hends := function_alike (r := fun i => i - n + m) OneToOne.eq ha f.like_self
    (renumberLabel_of_none _ hf.named.labelParts?) hnumbers
  rw [hout] at hends
  generalize hout' : Emit.function a f ⟨{}, m⟩ = ends at hends
  cases hends with
  | ok _ hlines hl =>
    obtain ⟨cs, hlaid, hcs⟩ := laidOut_of_emit harity hf.called hout'
    rw [hlines, splitLines_renumber, hsplit, Prod.mk.injEq] at hcs
    have hlabels := hl.labels 0
    rw [hcs.2, ← hn']
    exact hlabels ▸ hlaid

end Func.LaidOut

end Functions

/-! ## Functions one after the other -/

section Lists

variable {a : Analysis} {arityOf : String → Option Nat} {n n' : Nat} {fs fs' : List Func}
  {xs : List (Func × List Block)}

/-- Functions one after the other, with the blocks of each. -/
inductive LaidOut (a : Analysis) (arityOf : String → Option Nat) : Nat → List (Func × List Block) → Nat → Prop
  | nil {n : Nat} : LaidOut a arityOf n [] n
  | cons {n n₁ n₂ : Nat} {f : Func} {bs : List Block} {xs : List (Func × List Block)}
      (hf : f.LaidOut a arityOf n bs n₁) (h : LaidOut a arityOf n₁ xs n₂) : LaidOut a arityOf n ((f, bs) :: xs) n₂

theorem laidOut_of_emit (harity : Resolves a arityOf) {l : Layout} {out : Emitted Unit}
    (hc : ∀ f ∈ fs, Stmt.CalledAll a.functions a.types f.body) (h : Emit.functions a fs l = .ok out) :
    ∃ xs, LaidOut a arityOf l.labels xs out.layout.labels ∧ xs.map Prod.fst = fs ∧
      splitLines out.lines = ([], xs.flatMap Prod.snd) := by
  induction fs generalizing l out with
  | nil =>
    obtain rfl := Emit.pure_eq_ok.1 h
    exact ⟨[], .nil, rfl, rfl⟩
  | cons f fs ih =>
    obtain ⟨b, b', hb, hb', rfl⟩ := Emit.bind_eq_ok.1 h
    obtain ⟨bs, hlaid, hsplit⟩ := Func.laidOut_of_emit harity (hc f List.mem_cons_self) hb
    obtain ⟨xs, hxs, rfl, hsplit'⟩ := ih (fun g hg => hc g (List.mem_cons_of_mem _ hg)) hb'
    refine ⟨(f, bs) :: xs, .cons hlaid hxs, rfl, ?_⟩
    rw [splitLines_append hsplit', hsplit, List.flatMap_cons]

theorem LaidOut.emit (h : LaidOut a arityOf n xs n') {l : Layout} (hl : l.labels = n) :
    ∃ out, Emit.functions a (xs.map Prod.fst) l = .ok out ∧ splitLines out.lines = ([], xs.flatMap Prod.snd) := by
  induction h generalizing l with
  | nil => exact ⟨_, rfl, rfl⟩
  | @cons n n₁ n₂ f bs xs hf _ ih =>
    obtain ⟨out, hout, hlabels, hsplit⟩ := hf.emitted l hl
    obtain ⟨rest, hrest, hsplit'⟩ := ih hlabels
    refine ⟨_, Emit.bind_eq_ok.2 ⟨out, rest, hout, hrest, rfl⟩, ?_⟩
    rw [splitLines_append hsplit', hsplit, List.flatMap_cons]

theorem laidOut_of_generate (harity : Resolves a arityOf) {p : Program} {m : Module}
    (hc : ∀ f ∈ p.functions, Stmt.CalledAll a.functions a.types f.body) (h : generate a p = .ok m) :
    ∃ xs n, LaidOut a arityOf 0 xs n ∧ xs.map Prod.fst = p.functions ∧ m.blocks = xs.flatMap Prod.snd := by
  unfold generate at h
  split at h
  · next out hout =>
    cases h
    obtain ⟨xs, hxs, hfst, hsplit⟩ := laidOut_of_emit harity hc hout
    exact ⟨xs, _, hxs, hfst, by rw [Module.ofLines, hsplit]⟩
  · cases h

theorem LaidOut.generate (h : LaidOut a arityOf 0 xs n) {p : Program} (hp : xs.map Prod.fst = p.functions) :
    ∃ m, MicroC.generate a p = .ok m ∧ m.blocks = xs.flatMap Prod.snd := by
  obtain ⟨out, hout, hsplit⟩ := h.emit (l := {}) rfl
  rw [hp] at hout
  refine ⟨.ofLines out.lines, by rw [MicroC.generate, hout], ?_⟩
  rw [Module.ofLines, hsplit]

theorem LaidOut.coded (h : LaidOut a arityOf n xs n') :
    ∃ rs, ProgramCode ⟨a.symbols, arityOf⟩ n (xs.map Prod.fst) rs n' ∧
      List.Forall₂ Subroutine.Spelled rs (xs.map Prod.snd) := by
  induction h with
  | nil => exact ⟨[], .nil, .nil⟩
  | cons hf _ ih =>
    obtain ⟨r, hr, hspelled⟩ := hf.coded
    obtain ⟨rs, hrs, hparts⟩ := ih
    exact ⟨r :: rs, .cons hr hrs, .cons hspelled hparts⟩

theorem LaidOut.within (h : LaidOut a arityOf n xs n') (hnames : ∀ x ∈ xs, IsName x.1.name.name) :
    n ≤ n' ∧ ∀ x ∈ xs, ∀ b ∈ x.2, b.Within n n' := by
  induction h with
  | nil => exact ⟨Nat.le_refl _, nofun⟩
  | @cons n n₁ n₂ f bs xs hf _ ih =>
    obtain ⟨hname, hnames⟩ := List.forall_mem_cons.1 hnames
    obtain ⟨hle, hwithin⟩ := hf.within hname
    obtain ⟨hle', hwithin'⟩ := ih hnames
    refine ⟨Nat.le_trans hle hle', List.forall_mem_cons.2 ⟨fun b hb => ?_, fun x hx b hb => ?_⟩⟩
    · exact (hwithin b hb).mono (Nat.le_refl _) hle'
    · exact (hwithin' x hx b hb).mono hle (Nat.le_refl _)

/-- The blocks of functions with other numbers. -/
def renumberAll (r : Nat → Nat) (xs : List (Func × List Block)) : List (Func × List Block) :=
  xs.map fun x => (x.1, x.2.map (Block.renumber r))

theorem renumberAll_eq {r : Nat → Nat} (h : ∀ x ∈ xs, ∀ b ∈ x.2, b.renumber r = b) : renumberAll r xs = xs := by
  refine (List.map_congr_left fun x hx => congrArg (Prod.mk x.1) ?_).trans (List.map_id xs)
  exact (List.map_congr_left (h x hx)).trans (List.map_id x.2)

theorem renumberAll_renumberAll (r r' : Nat → Nat) (xs : List (Func × List Block)) :
    renumberAll r' (renumberAll r xs) = renumberAll (r' ∘ r) xs := by
  simp only [renumberAll, List.map_map, Function.comp_def, Block.renumber_renumber]

/-- Changes places of two ranges of numbers that follow one another. -/
def exchange (n n₁ n₂ i : Nat) : Nat :=
  if n ≤ i ∧ i < n₁ then i - n + (n₂ - n₁ + n) else if n₁ ≤ i ∧ i < n₂ then i - n₁ + n else i

theorem exchange_injective {n n₁ n₂ : Nat} (h : n ≤ n₁) (h' : n₁ ≤ n₂) : Function.Injective (exchange n n₁ n₂) := by
  intro i j hij
  unfold exchange at hij
  split_ifs at hij <;> omega

/-- Numbers that are given out in another order: different ones stay different, and others than those from one
number up to another stay as they are. -/
structure Rearranges (n n' : Nat) (r : Nat → Nat) : Prop where
  injective : Function.Injective r
  outside : ∀ i, ¬ (n ≤ i ∧ i < n') → r i = i

theorem Rearranges.id (n n' : Nat) : Rearranges n n' id := ⟨Function.injective_id, fun _ _ => rfl⟩

theorem Rearranges.mono {m m' : Nat} {r : Nat → Nat} (h : Rearranges n n' r) (hm : m ≤ n) (hm' : n' ≤ m') :
    Rearranges m m' r := ⟨h.injective, fun i hi => h.outside i (by omega)⟩

theorem Rearranges.comp {r r' : Nat → Nat} (h' : Rearranges n n' r') (h : Rearranges n n' r) :
    Rearranges n n' (r' ∘ r) :=
  ⟨h'.injective.comp h.injective, fun i hi => by rw [Function.comp, h.outside i hi, h'.outside i hi]⟩

/-- Two functions that change places. -/
theorem LaidOut.swap (ha : a.Like Eq a) (harity : Resolves a arityOf) {f g : Func} {bs cs : List Block}
    (hf : f.Checked a) (hg : g.Checked a) (hxs : ∀ x ∈ xs, IsName x.1.name.name)
    (h : LaidOut a arityOf n ((g, bs) :: (f, cs) :: xs) n') :
    ∃ xs' r, LaidOut a arityOf n xs' n' ∧ xs'.map Prod.fst = f :: g :: xs.map Prod.fst ∧ Rearranges n n' r ∧
      (renumberAll r ((g, bs) :: (f, cs) :: xs)).Perm xs' := by
  cases h with
  | @cons _ n₁ _ _ _ _ hlaid h =>
  cases h with
  | @cons _ n₂ _ _ _ _ hlaid' h =>
    obtain ⟨hle, hwithin⟩ := hlaid.within hg.named
    obtain ⟨hle', hwithin'⟩ := hlaid'.within hf.named
    obtain ⟨hrest, hwithin''⟩ := h.within hxs
    -- The second function starts where the first one did, and the first one where the second one ends.
    have hfirst := hlaid'.shift ha harity hf n
    have hsecond := hlaid.shift ha harity hg (n₂ - n₁ + n)
    have hend : n₁ - n + (n₂ - n₁ + n) = n₂ := by omega
    rw [hend] at hsecond
    refine ⟨_, exchange n n₁ n₂, .cons hfirst (.cons hsecond h), rfl, ?_, ?_⟩
    · refine ⟨exchange_injective hle hle', fun i hi => ?_⟩
      unfold exchange
      rw [if_neg (by omega), if_neg (by omega)]
    · have hg : bs.map (Block.renumber (exchange n n₁ n₂)) = bs.map (Block.renumber _) :=
        List.map_congr_left fun b hb => (hwithin b hb).renumber_congr fun i hi hi' => if_pos ⟨hi, hi'⟩
      have hf : cs.map (Block.renumber (exchange n n₁ n₂)) = cs.map (Block.renumber _) :=
        List.map_congr_left fun b hb => (hwithin' b hb).renumber_congr fun i hi hi' => by
          rw [exchange, if_neg (by omega), if_pos ⟨hi, hi'⟩]
      have hxs : renumberAll (exchange n n₁ n₂) xs = xs :=
        renumberAll_eq fun x hx b hb => (hwithin'' x hx b hb).renumber_eq fun i hi hi' => by
          rw [exchange, if_neg (by omega), if_neg (by omega)]
      have hcons : renumberAll (exchange n n₁ n₂) ((g, bs) :: (f, cs) :: xs) =
          (g, bs.map (Block.renumber (exchange n n₁ n₂))) :: (f, cs.map (Block.renumber (exchange n n₁ n₂))) ::
            renumberAll (exchange n n₁ n₂) xs := rfl
      rw [hcons, hg, hf, hxs]
      exact .swap _ _ _

/-- **Functions in another order** have the same blocks, up to the numbers of their labels. -/
theorem LaidOut.arranged (ha : a.Like Eq a) (harity : Resolves a arityOf) (hp : fs.Perm fs')
    (hfs : ∀ f ∈ fs, f.Checked a) (h : LaidOut a arityOf n xs n') (hxs : xs.map Prod.fst = fs) :
    ∃ xs' r, LaidOut a arityOf n xs' n' ∧ xs'.map Prod.fst = fs' ∧ Rearranges n n' r ∧
      (renumberAll r xs).Perm xs' := by
  induction hp generalizing xs n n' with
  | nil =>
    obtain rfl := List.map_eq_nil_iff.1 hxs
    exact ⟨[], _, h, rfl, .id n n', .refl _⟩
  | cons f _ ih =>
    obtain ⟨⟨_, bs⟩, ys, rfl, rfl, rfl⟩ := List.map_eq_cons_iff.1 hxs
    obtain ⟨hf, hfs⟩ := List.forall_mem_cons.1 hfs
    cases h with
    | @cons _ n₁ _ _ _ _ hlaid h =>
      obtain ⟨hle, hwithin⟩ := hlaid.within hf.named
      obtain ⟨xs', r, hxs', rfl, hr, hperm⟩ := ih hfs h rfl
      refine ⟨_, r, .cons hlaid hxs', rfl, hr.mono hle (Nat.le_refl _), ?_⟩
      have hstay : bs.map (Block.renumber r) = bs := by
        refine (List.map_congr_left fun b hb => ?_).trans (List.map_id bs)
        exact (hwithin b hb).renumber_eq fun i hi hi' => hr.outside i (by omega)
      show ((_, bs.map (Block.renumber r)) :: renumberAll r ys).Perm _
      rw [hstay]
      exact .cons _ hperm
  | swap f g fs =>
    obtain ⟨⟨_, bs⟩, ys, rfl, rfl, hys⟩ := List.map_eq_cons_iff.1 hxs
    obtain ⟨⟨_, cs⟩, zs, rfl, rfl, rfl⟩ := List.map_eq_cons_iff.1 hys
    obtain ⟨hg, hfs⟩ := List.forall_mem_cons.1 hfs
    obtain ⟨hf, hfs⟩ := List.forall_mem_cons.1 hfs
    exact h.swap ha harity hf hg fun x hx => (hfs x.1 (List.mem_map_of_mem hx)).named
  | trans hp _ ih ih' =>
    obtain ⟨xs', r, hxs', hfst, hr, hperm⟩ := ih hfs h hxs
    obtain ⟨xs'', r', hxs'', hfst', hr', hperm'⟩ := ih' (fun f hf => hfs f (hp.mem_iff.2 hf)) hxs' hfst
    refine ⟨xs'', r' ∘ r, hxs'', hfst', hr'.comp hr, ?_⟩
    rw [← renumberAll_renumberAll]
    exact (hperm.map _).trans hperm'

/-- **A program with its functions in another order** has the same blocks for each, up to the numbers of their
labels. -/
theorem generate_arranged {a' : Analysis} {p p' : Program} {m : Module} (ha : a.Like Eq a') (hself : a.Like Eq a)
    (harity : Resolves a arityOf) (hp : p.functions.Perm p'.functions) (hfs : ∀ f ∈ p.functions, f.Checked a)
    (h : generate a p = .ok m) :
    ∃ m' xs xs' r n, generate a' p' = .ok m' ∧ LaidOut a arityOf 0 xs n ∧ xs.map Prod.fst = p.functions ∧
      m.blocks = xs.flatMap Prod.snd ∧ xs'.map Prod.fst = p'.functions ∧ m'.blocks = xs'.flatMap Prod.snd ∧
      Rearranges 0 n r ∧ (renumberAll r xs).Perm xs' := by
  obtain ⟨xs, n, hxs, hfst, hblocks⟩ := laidOut_of_generate harity (fun f hf => (hfs f hf).called) h
  obtain ⟨xs', r, hxs', hfst', hr, hperm⟩ := hxs.arranged hself harity hp hfs hfst
  obtain ⟨m', hgenerate, hblocks'⟩ := hxs'.generate hfst'
  refine ⟨m', xs, xs', r, n, ?_, hxs, hfst, hblocks, hfst', hblocks', hr, hperm⟩
  have hlikes : List.Forall₂ (Func.Like Eq) p'.functions p'.functions :=
    List.forall₂_same.2 fun f _ => f.like_self
  rcases generate_alike OneToOne.eq ha hlikes with ⟨e, -, he, -⟩ | ⟨m, hm, hm'⟩
  · rw [hgenerate] at he
    cases he
  · rw [hm', ← hm, hgenerate]

end Lists

end MicroC
