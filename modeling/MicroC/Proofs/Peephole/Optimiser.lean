import MicroC.Proofs.Peephole.Blocks
import MicroC.Proofs.Peephole.Simulation

/-!
# Reduced modules

The reductions leave the code alone that sets up a frame and gives it up, and rewrite the bodies of all
routines. So a reduced module spells rewritten routines.

* `reduceRound_entry`, `reduceRound_exit`: what the reductions leave alone.
* `Blocks.reduce`: bodies are rewritten block by block.
* `Turned`: chains of rewritten programs.
* **`Spelled.optimise`**: a reduced module spells a rewritten program.
-/

namespace MicroC

open Convention Operand Emit List

/-! ## What the reductions leave alone -/

/-- An instruction that no reduction changes, unless it is a push or a pop. -/
structure Instruction.Inert (i : Instruction) : Prop where
  nop : i.isNop = false
  load : constantLoad? i = none
  self : isSelfMove i = false

section Inert

variable {xs code past : List Instruction}

theorem removeNops_inert (h : ∀ i ∈ xs, i.Inert) : (removeNops (xs ++ code)).code = xs ++ (removeNops code).code := by
  simp only [removeNops, List.filter_append]
  congr 1
  rw [List.filter_eq_self]
  intro i hi
  rw [(h i hi).nop]
  rfl

theorem foldConstants_inert (h : ∀ i ∈ xs, i.Inert) :
    (foldConstants (xs ++ code)).code = xs ++ (foldConstants code).code := by
  induction xs with
  | nil => rfl
  | cons i xs ih =>
    have hi := (h i List.mem_cons_self).load
    rw [List.cons_append, foldConstants]
    split
    · show i :: (foldConstants (xs ++ code)).code = _
      rw [ih fun j hj => h j (List.mem_cons_of_mem _ hj), List.cons_append]
    · next heq =>
      rw [hi] at heq
      cases heq

theorem removeSelfMoves_inert (h : ∀ i ∈ xs, i.Inert) :
    (removeSelfMoves (xs ++ code)).code = xs ++ (removeSelfMoves code).code := by
  simp only [removeSelfMoves, List.map_append]
  congr 1
  rw [List.map_congr_left (g := id), List.map_id]
  intro i hi
  rw [(h i hi).self]
  rfl

/-- Instructions that no search for a push gets past. -/
theorem findPush_append (hstop : findPush xs = none) :
    findPush (past ++ xs) = (findPush past).map fun (window, push, before) => (window, push, before ++ xs) := by
  induction past with
  | nil => exact hstop
  | cons i past ih =>
    rw [List.cons_append, findPush, findPush, ih]
    split
    · rfl
    · simp only [Option.map_map]
      rfl
    · split
      · rfl
      · simp only [Option.map_map]
        rfl
    · rfl

theorem joinPop?_append (hstop : findPush xs = none) (pop : Instruction) :
    joinPop? (past ++ xs) pop = (joinPop? past pop).map (· ++ xs) := by
  unfold joinPop?
  rw [findPush_append hstop]
  cases hp : findPush past with
  | none => rfl
  | some found =>
    obtain ⟨window, push, before⟩ := found
    simp only [Option.map_some]
    split
    · simp
    · rfl

theorem combineFrom_append (hstop : findPush xs = none) :
    (combineFrom (past ++ xs) code).code = xs.reverse ++ (combineFrom past code).code := by
  induction code generalizing past with
  | nil => simp [combineFrom]
  | cons i code ih =>
    rw [combineFrom, combineFrom]
    by_cases hop : i.opcode = .popq
    · rw [if_pos hop, if_pos hop, joinPop?_append hstop]
      cases joinPop? past i with
      | none => exact @ih (i :: past)
      | some joined => exact @ih joined
    · rw [if_neg hop, if_neg hop]
      exact @ih (i :: past)

/-- Instructions that are no pops, or pops for which no push is found, are only gone through. -/
theorem combineFrom_pass (h : findPush past = none ∧ (∀ i ∈ xs, i.opcode = .popq ∨ i.opcode = .retq) ∨
    ∀ i ∈ xs, i.opcode ≠ .popq) :
    (combineFrom past (xs ++ code)).code = (combineFrom (xs.reverse ++ past) code).code := by
  induction xs generalizing past with
  | nil => rfl
  | cons i xs ih =>
    have hnone : (if i.opcode = .popq then joinPop? past i else none) = none := by
      by_cases hop : i.opcode = .popq
      · rw [if_pos hop]
        rcases h with ⟨hpast, -⟩ | h
        · rw [joinPop?, hpast]
        · exact absurd hop (h i List.mem_cons_self)
      · rw [if_neg hop]
    rw [List.cons_append, combineFrom, hnone]
    dsimp only
    rw [ih, List.reverse_cons, List.append_assoc, List.singleton_append]
    refine h.imp (fun h => ⟨?_, fun j hj => h.2 j (List.mem_cons_of_mem _ hj)⟩)
      fun h j hj => h j (List.mem_cons_of_mem _ hj)
    rw [findPush]
    rcases h.2 i List.mem_cons_self with hop | hop
    · rw [hop]
    · rw [hop]

end Inert

/-- A reduction leaves some instructions at the front alone, and the others do not matter to it. -/
def Skips (xs : List Instruction) (f : List Instruction → List Instruction) : Prop :=
  ∀ code, f (xs ++ code) = xs ++ f code

theorem skips_reduceIf {xs : List Instruction} (allowed : Bool) {reduce : List Instruction → Reduced}
    (h : Skips xs fun code => (reduce code).code) : Skips xs fun code => (reduceIf allowed reduce code).code := by
  cases allowed with
  | true => exact h
  | false => exact fun _ => rfl

theorem Skips.comp {xs : List Instruction} {f g : List Instruction → List Instruction} (hg : Skips xs g)
    (hf : Skips xs f) : Skips xs fun code => g (f code) := by
  intro code
  show g (f (xs ++ code)) = xs ++ g (f code)
  rw [hf code, hg (f code)]

theorem skips_reduceRound (rs : Reductions) {xs : List Instruction} (hinert : ∀ i ∈ xs, i.Inert)
    (hcombine : Skips xs fun code => (combinePushPop code).code) :
    Skips xs fun code => (reduceRound rs code).1 :=
  (skips_reduceIf _ fun _ => removeSelfMoves_inert hinert).comp <|
    (skips_reduceIf _ fun _ => foldConstants_inert hinert).comp <|
      (skips_reduceIf _ hcombine).comp (skips_reduceIf _ fun _ => removeNops_inert hinert)

theorem reduceRound_nil (rs : Reductions) : (reduceRound rs []).1 = [] := by
  have hif : ∀ allowed {reduce : List Instruction → Reduced}, (reduce []).code = [] →
      (reduceIf allowed reduce []).code = [] := by
    intro allowed reduce h
    cases allowed with
    | true => exact h
    | false => rfl
  have hfold : (foldConstants []).code = [] := by rw [foldConstants]
  simp only [reduceRound]
  rw [hif _ rfl, hif _ rfl, hif _ hfold, hif _ rfl]

theorem inert_of_text {i : Instruction} (h : i.text ∈ entryTexts ++ exitTexts) : i.Inert := by
  have hall : ∀ t ∈ entryTexts ++ exitTexts, Instruction.isNop ⟨t.1, t.2, ""⟩ = false ∧
      constantLoad? ⟨t.1, t.2, ""⟩ = none ∧ isSelfMove ⟨t.1, t.2, ""⟩ = false := by
    decide
  obtain ⟨hnop, hload, hself⟩ := hall i.text h
  exact ⟨hnop, hload, hself⟩

/-- No search for a push gets past a move of the stack pointer. -/
theorem findPush_of_text {i : Instruction} (h : i.text = (.movq, ["%rsp", "%rbp"]) ∨
    i.text = (.movq, ["%rbp", "%rsp"])) (past : List Instruction) : findPush (i :: past) = none := by
  have hmentions : ∀ os, os = ["%rsp", "%rbp"] ∨ os = ["%rbp", "%rsp"] →
      (os.any fun o => (registers o).contains stackPointer) = true := by
    rintro os (rfl | rfl) <;> decide
  have hop : i.opcode = .movq := h.elim (fun h => congrArg Prod.fst h) fun h => congrArg Prod.fst h
  have hos := hmentions i.operands (h.imp (fun h => congrArg Prod.snd h) fun h => congrArg Prod.snd h)
  rw [findPush, hop]
  exact if_pos hos

theorem skips_entry (rs : Reductions) {entry : List Instruction} (h : entry.map Instruction.text = entryTexts) :
    Skips entry fun code => (reduceRound rs code).1 := by
  have hmem : ∀ i ∈ entry, i.text ∈ entryTexts := fun i hi => h ▸ List.mem_map_of_mem hi
  refine skips_reduceRound rs (fun i hi => inert_of_text (List.mem_append_left _ (hmem i hi))) fun code => ?_
  have hpops : ∀ i ∈ entry, i.opcode ≠ .popq := by
    intro i hi
    have hall : ∀ t ∈ entryTexts, t.1 ≠ .popq := by decide
    exact hall i.text (hmem i hi)
  have hrev : entry.reverse.map Instruction.text = (.movq, ["%rsp", "%rbp"]) :: entryTexts.reverse.tail := by
    rw [List.map_reverse, h]
    rfl
  obtain ⟨i, past, hcons, hi, -⟩ := List.map_eq_cons_iff.1 hrev
  have hstop : findPush entry.reverse = none := by
    rw [hcons]
    exact findPush_of_text (.inl hi) past
  have happend := @combineFrom_append entry.reverse code [] hstop
  rw [List.reverse_reverse, List.nil_append] at happend
  show (combineFrom [] (entry ++ code)).code = _
  rw [combineFrom_pass (.inr hpops), List.append_nil, happend]
  rfl

theorem skips_exit (rs : Reductions) {exits : List Instruction} (h : exits.map Instruction.text = exitTexts) :
    Skips exits fun code => (reduceRound rs code).1 := by
  have hmem : ∀ i ∈ exits, i.text ∈ exitTexts := fun i hi => h ▸ List.mem_map_of_mem hi
  refine skips_reduceRound rs (fun i hi => inert_of_text (List.mem_append_right _ (hmem i hi))) fun code => ?_
  obtain ⟨i, pops, rfl, hi, hpops⟩ := List.map_eq_cons_iff.1 h
  have hstart : findPush [i] = none := findPush_of_text (.inr hi) []
  have hmove : i.opcode ≠ .popq := by
    rw [show i.opcode = i.text.1 from rfl, hi]
    nofun
  have hpop : ∀ j ∈ pops, j.opcode = .popq ∨ j.opcode = .retq := by
    intro j hj
    have hall : ∀ t ∈ exitTexts.tail, t.1 = .popq ∨ t.1 = .retq := by decide
    exact hall j.text ((show pops.map Instruction.text = exitTexts.tail from hpops) ▸ List.mem_map_of_mem hj)
  have hlast : findPush (i :: pops).reverse = none := by
    have hrev : pops.reverse.map Instruction.text = (.retq, []) :: exitTexts.tail.reverse.tail := by
      rw [List.map_reverse, hpops]
      rfl
    obtain ⟨j, past, hcons, hj, -⟩ := List.map_eq_cons_iff.1 hrev
    rw [List.reverse_cons, hcons, List.cons_append, findPush, show j.opcode = j.text.1 from rfl, hj]
  have happend := @combineFrom_append (i :: pops).reverse code [] hlast
  rw [List.reverse_reverse, List.nil_append] at happend
  show (combineFrom [] (i :: (pops ++ code))).code = _
  rw [combineFrom, if_neg hmove]
  dsimp only
  rw [combineFrom_pass (.inl ⟨hstart, hpop⟩), ← List.reverse_cons, happend]
  rfl

/-! ## Bodies -/

/-- A block with its instructions changed. -/
def Block.mapCode (f : List Instruction → List Instruction) (b : Block) : Block := { b with code := f b.code }

section Bodies

variable {env : Setting} {exit : String} {k : List Item} {code : List Instruction} {bs : List Block}
  {f : List Instruction → List Instruction}

theorem Blocks.split (h : Blocks exit k code bs) :
    ∃ os k', k = items os ++ k' ∧ AtEnd k' ∧ Forall₂ (Instruction.Spells exit) code os ∧ Blocks exit k' [] bs := by
  induction h with
  | nil => exact ⟨[], [], rfl, trivial, .nil, .nil⟩
  | @op i o k code bs hi h ih =>
    obtain ⟨os, k', rfl, hk', hos, hbs⟩ := ih
    exact ⟨o :: os, k', rfl, hk', .cons hi hos, hbs⟩
  | @label b ks k bs h ih => exact ⟨[], _, rfl, trivial, .nil, .label h⟩

theorem Blocks.join {os : List Op} (hos : Forall₂ (Instruction.Spells exit) code os) (h : Blocks exit k [] bs) :
    Blocks exit (items os ++ k) code bs := by
  induction hos with
  | nil => exact h
  | cons hi _ ih => exact .op hi ih

/-- **The items of a body are rewritten, block by block.** -/
theorem Blocks.reduce (hf : Reduces env exit f) (h : Blocks exit k code bs) :
    ∃ k', Blocks exit k' (f code) (bs.map (Block.mapCode f)) ∧ ∀ sh, Check env sh k → Rewrites env sh k k' := by
  induction bs generalizing k code with
  | nil =>
    obtain ⟨os, k₁, rfl, hk₁, hos, hbs⟩ := h.split
    obtain ⟨os', hos', hr⟩ := hf code os hos
    exact ⟨items os' ++ k₁, .join hos' hbs, fun sh hc => hr sh k₁ hk₁ hc⟩
  | cons b bs ih =>
    obtain ⟨os, k₁, rfl, hk₁, hos, hbs⟩ := h.split
    obtain ⟨os', hos', hr⟩ := hf code os hos
    cases hbs with
    | @label _ ks k _ hb =>
    obtain ⟨k', hk', hr'⟩ := ih hb
    refine ⟨items os' ++ .label b.name ks :: k', .join hos' (.label (b := b.mapCode f) hk'), fun sh hc => ?_⟩
    have hfirst := hr sh _ hk₁ hc
    refine hfirst.trans (Rewrites.behind_ops (fun th hth => ?_) (hfirst.check hc))
    exact .label hth.1 (hr' _ hth.2)

end Bodies

/-! ## Routines -/

section Routines

variable {base : List Subroutine} {mode : Mode} {r : Subroutine} {bs : List Block} {prog prog' : List Subroutine}

/-- One round over a block. -/
def reduceBlock (rs : Reductions) : Block → Block := Block.mapCode fun code => (reduceRound rs code).1

theorem roundBlocks_fst (rs : Reductions) (bs : List Block) : (Module.roundBlocks rs bs).1 = bs.map (reduceBlock rs) := by
  induction bs with
  | nil => rfl
  | cons b bs ih => rw [Module.roundBlocks, List.map_cons, ← ih]; rfl

theorem Subroutine.Spelled.reduce (rs : Reductions) (h : r.Spelled bs)
    (hc : Check (setting base mode r) (.fresh []) r.body) :
    ∃ k, { r with body := k }.Spelled (bs.map (reduceBlock rs)) ∧
      Rewrites (setting base mode r) (.fresh []) r.body k := by
  obtain ⟨hname, hcode, hentry, hbody, hlast, hexit⟩ := h
  next first last entry code inner =>
  obtain ⟨k, hk, hr⟩ := hbody.reduce (@reduces_reduceRound (setting base mode r) _ rs)
  refine ⟨k, ?_, hr _ hc⟩
  rw [List.map_cons, List.map_append, List.map_singleton]
  have hfirst : (reduceBlock rs first).code = entry ++ (reduceRound rs code).1 := by
    show (reduceRound rs first.code).1 = _
    rw [hcode]
    exact skips_entry rs hentry code
  have hexit' : (reduceBlock rs last).code = last.code := by
    show (reduceRound rs last.code).1 = _
    have hskip := skips_exit rs hexit []
    simp only [reduceRound_nil, List.append_nil] at hskip
    exact hskip
  exact .mk (r := { r with body := k }) hname hfirst hentry hk hlast (by rw [hexit']; exact hexit)

/-! ## Programs -/

/-- Chains of rewritten programs. -/
inductive Turned (base : List Subroutine) (mode : Mode) : List Subroutine → List Subroutine → Prop
  | refl (prog : List Subroutine) : Turned base mode prog prog
  | step {prog prog' prog'' : List Subroutine} (h : Turns base mode prog prog')
      (hs : Turned base mode prog' prog'') : Turned base mode prog prog''

/-- All routines are in order, with the number of arguments of a function as in another program. -/
def AllChecked (base : List Subroutine) (mode : Mode) (prog : List Subroutine) : Prop :=
  ∀ r ∈ prog, Check (setting base mode r) (.fresh []) r.body

theorem Turns.refl (h : AllChecked base mode prog) : Turns base mode prog prog := by
  induction prog with
  | nil => exact .nil
  | cons r prog ih =>
    exact .cons (.refl (h r List.mem_cons_self)) (ih fun q hq => h q (List.mem_cons_of_mem _ hq))

theorem Turned.trans {prog'' : List Subroutine} (h : Turned base mode prog prog')
    (h' : Turned base mode prog' prog'') : Turned base mode prog prog'' := by
  induction h with
  | refl => exact h'
  | step ht _ ih => exact .step ht (ih h')

theorem Turned.head {k : List Item} (hp : AllChecked base mode prog)
    (hk : Rewrites (setting base mode r) (.fresh []) r.body k) :
    Turned base mode (r :: prog) ({ r with body := k } :: prog) := by
  generalize henv : setting base mode r = env at hk
  generalize hj : r.body = j at hk
  induction hk generalizing r with
  | refl k =>
    subst hj
    exact .refl _
  | @step i j k h hs ih =>
    subst henv hj
    have htwin : Twin base mode r { r with body := j } := ⟨j, rfl, h⟩
    exact .step (.cons htwin (.refl hp)) (ih (r := { r with body := j }) htwin.setting_eq rfl)

theorem Turned.tail (hr : Check (setting base mode r) (.fresh []) r.body) (h : Turned base mode prog prog') :
    Turned base mode (r :: prog) (r :: prog') := by
  induction h with
  | refl => exact .refl _
  | step ht _ ih => exact .step (.cons (.refl hr) ht) ih

theorem Turns.allChecked (h : Turns base mode prog prog') : AllChecked base mode prog' := by
  intro r' hr'
  obtain ⟨r, -, htwin⟩ := h.mem hr'
  rw [htwin.setting_eq]
  obtain ⟨k, rfl, hk⟩ := htwin
  exact hk.check

theorem Turned.allChecked (h : Turned base mode prog prog') (hp : AllChecked base mode prog) :
    AllChecked base mode prog' := by
  induction h with
  | refl => exact hp
  | step ht _ ih => exact ih ht.allChecked

theorem Spelled.round (rs : Reductions) (h : Spelled prog bs) (hp : AllChecked base mode prog) :
    ∃ prog', Spelled prog' (bs.map (reduceBlock rs)) ∧ Turned base mode prog prog' := by
  induction h with
  | nil => exact ⟨[], .nil, .refl _⟩
  | @cons r prog bs cs hr h ih =>
    have hprog : AllChecked base mode prog := fun q hq => hp q (List.mem_cons_of_mem _ hq)
    obtain ⟨k, hk, hrewrites⟩ := hr.reduce rs (hp r List.mem_cons_self)
    obtain ⟨prog', hprog', hturned⟩ := ih hprog
    have hhead := Turned.head hprog hrewrites
    have hcheck := hhead.allChecked hp { r with body := k } List.mem_cons_self
    refine ⟨{ r with body := k } :: prog', ?_, hhead.trans (hturned.tail hcheck)⟩
    rw [List.map_append]
    exact .cons hk hprog'

/-- **A reduced module spells a rewritten program.** -/
theorem Spelled.optimise (rs : Reductions) (h : Spelled prog bs) (hp : AllChecked base mode prog) :
    ∃ prog', Spelled prog' (Module.optimiseBlocks rs bs).1 ∧ Turned base mode prog prog' := by
  fun_induction Module.optimiseBlocks rs bs generalizing prog with
  | case1 bs =>
    rw [roundBlocks_fst]
    exact h.round rs hp
  | case2 bs _ _ bs' t heq =>
    rename_i ih
    obtain ⟨mid, hmid, hturned⟩ := h.round rs hp
    rw [roundBlocks_fst] at heq ih
    obtain ⟨prog', hprog', hturned'⟩ := ih hmid (hturned.allChecked hp)
    rw [heq] at hprog'
    exact ⟨prog', hprog', hturned.trans hturned'⟩

theorem Turned.arityOf (h : Turned base mode prog prog') : MicroC.arityOf prog' = MicroC.arityOf prog := by
  induction h with
  | refl => rfl
  | step ht _ ih => rw [ih, ht.arityOf]

theorem Turned.inOrder (h : Turned base mode prog prog') (hbase : MicroC.arityOf prog = MicroC.arityOf base)
    (hin : InOrder prog mode) : InOrder prog' mode := by
  induction h with
  | refl => exact hin
  | step ht _ ih => exact ih (ht.arityOf.trans hbase) (ht.inOrder hbase hin)

theorem Turns.names_eq (h : Turns base mode prog prog') :
    prog'.flatMap Subroutine.names = prog.flatMap Subroutine.names := by
  induction h with
  | nil => rfl
  | cons ht _ ih =>
    rw [List.flatMap_cons, List.flatMap_cons, ih, Subroutine.names, Subroutine.names, ht.labels_eq, ht.name]

theorem Turned.wellNamed (h : Turned base mode prog prog') (hn : WellNamed prog) : WellNamed prog' := by
  induction h with
  | refl => exact hn
  | step ht _ ih =>
    have heq := ht.names_eq
    exact ih ⟨by rw [heq]; exact hn.nodup, by rw [heq]; exact hn.ne_empty, by rw [heq]; exact hn.host⟩

theorem Turns.exists_twin (h : Turns base mode prog prog') (hr : r ∈ prog) :
    ∃ r' ∈ prog', Twin base mode r r' := by
  induction h with
  | nil => cases hr
  | @cons q q' rs rs' hq hs ih =>
    rcases List.mem_cons.1 hr with rfl | hr
    · exact ⟨q', List.mem_cons_self, hq⟩
    · obtain ⟨r', hr', htwin⟩ := ih hr
      exact ⟨r', List.mem_cons_of_mem _ hr', htwin⟩

theorem Turned.exists_routine (h : Turned base mode prog prog') (hr : r ∈ prog) :
    ∃ r' ∈ prog', r'.name = r.name ∧ r'.arity = r.arity := by
  induction h generalizing r with
  | refl => exact ⟨r, hr, rfl, rfl⟩
  | step ht _ ih =>
    obtain ⟨r₁, hr₁, htwin⟩ := ht.exists_twin hr
    obtain ⟨r', hr', hname, harity⟩ := ih hr₁
    exact ⟨r', hr', hname.trans htwin.name, harity.trans htwin.arity⟩

end Routines

/-! ## Runs -/

section Runs

variable {σ : Type} [Host σ] {base : List Subroutine} {mode : Mode} {r r' : Subroutine}
  {prog prog' : List Subroutine}

theorem sound_outermost (hin : InOrder prog mode) (hr : r ∈ prog)
    (hguard : mode.guarded = true → r.arity ≤ argumentRegisters.length) : Sound prog mode (outermost r) := by
  have hroom : contextDepth [⟨none, fun _ => 0, []⟩] ≤ stackWords := by
    simp [contextDepth, linkWords, stackWords]
  refine ⟨hr, ⟨_, hin.check r hr, .fresh .nil, ?_, Nat.zero_le _⟩, .outermost hguard _⟩
  simpa [State.depth, outermost, entryState] using Nat.le_add_right_of_le hroom

/-- In front of its body a routine and what it is rewritten to are at the same place. -/
theorem Twin.sim (h : Twin base mode r r') (hin : InOrder prog mode) (hin' : InOrder prog' mode) (hr : r ∈ prog)
    (hr' : r' ∈ prog') (hguard : mode.guarded = true → r.arity ≤ argumentRegisters.length) :
    Sim base mode prog prog' (outermost r) (outermost r') := by
  refine ⟨sound_outermost hin hr hguard, sound_outermost hin' hr' (h.arity ▸ hguard), h, .outermost _ _ _, ?_⟩
  have harity := h.arity
  obtain ⟨k, rfl, hk⟩ := h
  exact .level (Shape.warm_fresh []) hk (.ofFresh rfl rfl rfl (fun _ _ => rfl) harity rfl)

/-- **A run of a rewritten program comes to the same end, and not later.** -/
theorem Turned.finishes (h : Turned base mode prog prog') (hstrict : mode.strict = true)
    (hbase : MicroC.arityOf prog = MicroC.arityOf base) (hin : InOrder prog mode) (hr : r ∈ prog)
    (hguard : mode.guarded = true → r.arity ≤ argumentRegisters.length) {n : Nat} {host host' : σ}
    {res : Except MachineError Int64} (hf : Finishes prog n (outermost r) host res host')
    (hres : ∀ e, res = .error e → e.ofStack = false) :
    ∃ r' ∈ prog', r'.name = r.name ∧ ∃ m ≤ n, Finishes prog' m (outermost r') host res host' := by
  induction h generalizing r n with
  | refl => exact ⟨r, hr, rfl, n, Nat.le_refl n, hf⟩
  | step ht _ ih =>
    have hin' := ht.inOrder hbase hin
    obtain ⟨r₁, hr₁, htwin⟩ := ht.exists_twin hr
    obtain ⟨m₁, hm₁, hf₁⟩ := hf.turn ht hstrict hin hin' hres (htwin.sim hin hin' hr hr₁ hguard)
    obtain ⟨r', hr', hname, m, hm, hf'⟩ :=
      ih (ht.arityOf.trans hbase) hin' hr₁ (htwin.arity ▸ hguard) hf₁
    exact ⟨r', hr', hname.trans htwin.name, m, Nat.le_trans hm hm₁, hf'⟩

end Runs

end MicroC
