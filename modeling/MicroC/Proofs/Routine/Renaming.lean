import Mathlib.Data.List.Nodup
import MicroC.Proofs.Emission.Labels
import MicroC.Proofs.Routine.Decoding
import MicroC.Proofs.Routine.Lockstep

/-!
# Labels with other names

It does not matter which names labels have, as long as different labels have different names, and it does not
matter in which order routines stand: a jump goes to a label of its own routine, and a call to the routine with a
name. So routines with other labels in another order take the same steps.

* `Op.rename`, `Item.rename`, `Subroutine.rename`: routines whose labels have other names.
* `Check.rename`: they are in order if those were.
* `Rearranged`: routines in another order, whose labels have other names.
* `State.next_rename`: a step of the one is a step of the other.
* **`Rearranged.lockstep`**: both take the same steps.
* `Subroutine.Spelled.renumber`: what spells routines whose labels have other numbers.
-/

namespace MicroC

open Convention

/-! ## Items -/

/-- Gives labels other names. -/
def Op.rename (ρ : String → String) : Op → Op
  | .jump j l => .jump j (ρ l)
  | o => o

def Item.rename (ρ : String → String) : Item → Item
  | .label l ks => .label (ρ l) ks
  | .op o => .op (o.rename ρ)

def Subroutine.rename (ρ : String → String) (r : Subroutine) : Subroutine :=
  { r with body := r.body.map (Item.rename ρ) }

section Items

variable {ρ : String → String} {k : List Item}

theorem width_rename (ρ : String → String) (k : List Item) : width (k.map (Item.rename ρ)) = width k := by
  induction k with
  | nil => rfl
  | cons i k ih => cases i <;> simp [Item.rename, ih]

theorem labels_rename (ρ : String → String) (k : List Item) :
    labels (k.map (Item.rename ρ)) = (labels k).map (Prod.map ρ id) := by
  induction k with
  | nil => rfl
  | cons i k ih => cases i <;> simp [Item.rename, labels, ih]

theorem behind_rename (hρ : Function.Injective ρ) (l : String) (k : List Item) :
    behind (ρ l) (k.map (Item.rename ρ)) = (behind l k).map (List.map (Item.rename ρ)) := by
  induction k with
  | nil => rfl
  | cons i k ih =>
    cases i with
    | op o => exact ih
    | label m ks =>
      rw [List.map_cons, Item.rename, behind, behind, ih, apply_ite (Option.map _)]
      simp only [hρ.eq_iff, Option.map_some]

/-! ## Shapes -/

/-- What can be relied on with other labels. -/
def Setting.rename (ρ : String → String) (env : Setting) : Setting :=
  { env with labels := env.labels.map (Prod.map ρ id) }

variable {env : Setting} {sh th : Shape}

theorem Op.effect_rename {o : Op} (h : o.effect env sh = some th) :
    (o.rename ρ).effect (env.rename ρ) sh = some th := by
  cases o with
  | jump j l =>
    obtain ⟨hj, ⟨ks, hl, hks⟩, rfl⟩ := effect_jump.1 h
    exact effect_jump.2 ⟨hj, ⟨ks, List.mem_map_of_mem (f := Prod.map ρ id) hl, hks⟩, rfl⟩
  | _ => exact h

/-- **Items that are in order are so with other labels.** -/
theorem Check.rename (h : Check env sh k) : Check (env.rename ρ) sh (k.map (Item.rename ρ)) := by
  induction k generalizing sh with
  | nil => trivial
  | cons i k ih =>
    cases i with
    | label l ks => exact ⟨h.1, ih h.2⟩
    | op o =>
      obtain ⟨th, heff, hk⟩ := h
      exact ⟨th, Op.effect_rename heff, ih hk⟩

end Items

/-! ## Programs -/

/-- Routines in another order, whose labels have other names. -/
structure Rearranged (ρ : String → String) (prog prog' : List Subroutine) : Prop where
  injective : Function.Injective ρ
  perm : prog'.Perm (prog.map (Subroutine.rename ρ))
  names : (prog.map Subroutine.name).Nodup

theorem programWidth_perm {rs rs' : List Subroutine} (h : rs.Perm rs') : programWidth rs = programWidth rs' := by
  induction h with
  | nil => rfl
  | cons r _ ih => rw [programWidth, programWidth, ih]
  | swap r q rs =>
    simp only [programWidth]
    omega
  | trans _ _ ih ih' => rw [ih, ih']

namespace Rearranged

variable {ρ : String → String} {prog prog' : List Subroutine} {mode : Mode} {r : Subroutine}

theorem mem (h : Rearranged ρ prog prog') : r ∈ prog' ↔ ∃ q ∈ prog, q.rename ρ = r := by
  rw [h.perm.mem_iff, List.mem_map]

theorem names_eq (h : Rearranged ρ prog prog') : (prog'.map Subroutine.name).Nodup := by
  refine (h.perm.map _).nodup_iff.2 ?_
  rw [List.map_map]
  exact h.names

/-- **Functions are found by their names.** -/
theorem find (h : Rearranged ρ prog prog') (f : String) :
    prog'.find? (·.name == f) = (prog.find? (·.name == f)).map (Subroutine.rename ρ) := by
  refine Option.ext fun r => ?_
  rw [find?_eq_some_iff h.names_eq, h.mem, Option.map_eq_some_iff]
  simp only [find?_eq_some_iff h.names]
  constructor
  · rintro ⟨⟨q, hq, rfl⟩, hname⟩
    exact ⟨q, ⟨hq, hname⟩, rfl⟩
  · rintro ⟨q, ⟨hq, hname⟩, rfl⟩
    exact ⟨⟨q, hq, rfl⟩, hname⟩

theorem arityOf (h : Rearranged ρ prog prog') : MicroC.arityOf prog' = MicroC.arityOf prog := by
  funext f
  unfold MicroC.arityOf
  rw [h.find]
  cases prog.find? (·.name == f) with
  | none => rfl
  | some r => rfl

theorem setting (h : Rearranged ρ prog prog') (mode : Mode) (r : Subroutine) :
    MicroC.setting prog' mode (r.rename ρ) = (MicroC.setting prog mode r).rename ρ := by
  simp only [MicroC.setting, Setting.rename, h.arityOf, Subroutine.rename, labels_rename]

theorem inOrder (h : Rearranged ρ prog prog') (hin : InOrder prog mode) : InOrder prog' mode := by
  refine ⟨fun r hr => ?_, fun r hr => ?_⟩
  · obtain ⟨q, hq, rfl⟩ := h.mem.1 hr
    rw [h.setting]
    exact (hin.check q hq).rename
  · obtain ⟨q, hq, rfl⟩ := h.mem.1 hr
    have hlabels := List.Nodup.map h.injective (hin.labels q hq)
    rw [List.map_map] at hlabels
    rw [Subroutine.rename, labels_rename, List.map_map]
    exact hlabels

theorem programWidth (h : Rearranged ρ prog prog') : MicroC.programWidth prog' = MicroC.programWidth prog := by
  rw [programWidth_perm h.perm]
  clear h
  induction prog with
  | nil => rfl
  | cons r rs ih =>
    rw [List.map_cons, MicroC.programWidth, MicroC.programWidth, ih, Subroutine.width, Subroutine.width,
      Subroutine.rename, width_rename]

end Rearranged

/-! ## States -/

section States

variable {σ : Type} {ρ : String → String} {prog prog' : List Subroutine}

def Caller.rename (ρ : String → String) (a : Caller) : Caller :=
  { a with back := a.back.map (Prod.map (Subroutine.rename ρ) (List.map (Item.rename ρ))) }

def State.rename (ρ : String → String) (s : State) : State :=
  { s with
    routine := s.routine.rename ρ
    rest := s.rest.map (Item.rename ρ)
    callers := s.callers.map (Caller.rename ρ) }

def Outcome.rename (ρ : String → String) : Outcome σ → Outcome σ
  | .goes s host => .goes (s.rename ρ) host
  | .halts w host => .halts w host
  | .fails e host => .fails e host

theorem State.depth_rename (s : State) : (s.rename ρ).depth = s.depth := by
  have hcontext : ∀ cs, contextDepth (cs.map (Caller.rename ρ)) = contextDepth cs := by
    intro cs
    induction cs with
    | nil => rfl
    | cons c cs ih =>
      rw [List.map_cons, contextDepth, contextDepth, ih]
      rfl
  exact congrArg (s.words.length + ·) (hcontext s.callers)

theorem State.overflow_rename (junk : Junk) (s : State) : (s.rename ρ).overflow junk = s.overflow junk := by
  rw [State.overflow, State.overflow, State.depth_rename]

theorem Src.read_rename (junk : Junk) (s : State) (src : Src) : src.read junk (s.rename ρ) = src.read junk s := by
  cases src with
  | param n =>
    rw [Src.read, Src.read]
    simp only [State.rename]
    cases s.callers with
    | nil => rfl
    | cons c cs =>
      simp only [List.map_cons, Caller.rename, Option.isNone_map]
      rfl
  | _ => rfl

theorem Outcome.reading_rename {value : Option (Except MachineError Int64)} {host : σ}
    {f g : Int64 → Option (Outcome σ)} (h : ∀ w, g w = (f w).map (Outcome.rename ρ)) :
    Outcome.reading value host g = (Outcome.reading value host f).map (Outcome.rename ρ) := by
  rcases value with _ | e | w
  · rfl
  · rfl
  · exact h w

variable [Host σ]

theorem Op.run_rename {o : Op} (ho : o.isData = true) (junk : Junk) (s : State) (host : σ) :
    o.run prog' junk (s.rename ρ) host = (o.run prog junk s host).map (Outcome.rename ρ) := by
  cases o with
  | push src k =>
    rw [Op.run, Op.run, Src.read_rename, State.depth_rename, State.overflow_rename]
    refine Outcome.reading_rename fun w => ?_
    split <;> rfl
  | move src r =>
    rw [Op.run, Op.run, Src.read_rename]
    exact Outcome.reading_rename fun w => rfl
  | combine f src r =>
    rw [Op.run, Op.run, Src.read_rename]
    exact Outcome.reading_rename fun w => rfl
  | compare src r =>
    rw [Op.run, Op.run, Src.read_rename]
    exact Outcome.reading_rename fun w => rfl
  | store r n =>
    simp only [Op.run, State.rename]
    cases under s.words n with
    | none => rfl
    | some w => exact Outcome.reading_rename fun _ => rfl
  | pop r | peek r =>
    simp only [Op.run, State.rename]
    split <;> rfl
  | negate r | extend | grow | nop => rfl
  | divide r =>
    simp only [Op.run, apply_ite (Option.map _), apply_ite (Outcome.rename ρ), Option.map_some, Option.map_none]
    rfl
  | select o q r =>
    rw [Op.run, Op.run, show (s.rename ρ).flags = s.flags from rfl]
    cases s.flags with
    | none => rfl
    | some flags =>
      dsimp only
      split <;> rfl
  | shrink n =>
    simp only [Op.run, apply_ite (Option.map _), Option.map_some, Option.map_none]
    rfl
  | jump j l => cases ho
  | exit => cases ho
  | call f => cases ho

theorem State.call_rename (h : Rearranged ρ prog prog') (f : String) (junk : Junk) (s : State) (host : σ) :
    (s.rename ρ).call prog' junk f host = (s.call prog junk f host).map (Outcome.rename ρ) := by
  rw [State.call, State.call, h.find]
  cases prog.find? (·.name == f) with
  | some r =>
    simp only [Option.map_some, State.depth_rename, State.overflow_rename, apply_ite (Outcome.rename ρ)]
    rfl
  | none =>
    dsimp only [Option.map_none]
    cases Intrinsic.ofName? f with
    | none => rfl
    | some i =>
      dsimp only
      rw [show (s.rename ρ).arguments i.arity = s.arguments i.arity from rfl]
      cases s.arguments i.arity with
      | none => rfl
      | some args =>
        dsimp only
        cases i.call args host with
        | mk result host => cases result <;> rfl

omit [Host σ] in
theorem State.leave_rename (s : State) (host : σ) :
    (s.rename ρ).leave host = (s.leave host).map (Outcome.rename ρ) := by
  simp only [State.leave, State.rename]
  cases s.callers with
  | nil => rfl
  | cons c cs => obtain ⟨_ | back, regs, words⟩ := c <;> rfl

/-- **A step with other labels is the same step.** -/
theorem State.next_rename (h : Rearranged ρ prog prog') (junk : Junk) (s : State) (host : σ) :
    (s.rename ρ).next prog' junk host = (s.next prog junk host).map (Outcome.rename ρ) := by
  unfold State.next
  cases hrest : s.rest with
  | nil =>
    rw [show (s.rename ρ).rest = [] from congrArg (List.map (Item.rename ρ)) hrest]
    exact s.leave_rename host
  | cons i k =>
    have hcons : (s.rename ρ).rest = i.rename ρ :: k.map (Item.rename ρ) :=
      congrArg (List.map (Item.rename ρ)) hrest
    rw [hcons]
    cases i with
    | label l ks => rfl
    | op o =>
      cases o with
      | jump j l =>
        dsimp only [Item.rename, Op.rename, Op.run, State.rename, Subroutine.rename]
        rcases j.taken? s.flags with _ | _ | _
        · rfl
        · rfl
        · dsimp only
          rw [behind_rename h.injective, Option.map_map, Option.map_map]
          rfl
      | exit => rfl
      | call f =>
        dsimp only [Item.rename, Op.rename, Op.run, State.rename]
        rw [apply_ite (Option.map _), ← State.call_rename h]
        rfl
      | _ => exact Op.run_rename rfl junk { s with rest := k } host

/-! ## Lockstep -/

omit [Host σ] in
theorem State.cost_rename (h : Rearranged ρ prog prog') (s : State) : (s.rename ρ).cost prog' = s.cost prog := by
  unfold State.cost
  cases hrest : s.rest with
  | nil =>
    rw [show (s.rename ρ).rest = [] from congrArg (List.map (Item.rename ρ)) hrest]
  | cons i k =>
    rw [show (s.rename ρ).rest = i.rename ρ :: k.map (Item.rename ρ) from
      congrArg (List.map (Item.rename ρ)) hrest]
    cases i with
    | label l ks => rfl
    | op o =>
      cases o with
      | call f =>
        dsimp only [Item.rename, Op.rename]
        rw [h.find, Option.isSome_map]
      | _ => rfl

omit [Host σ] in
theorem State.Overflows.rename (h : Rearranged ρ prog prog') {s : State} (ho : s.Overflows prog) :
    (s.rename ρ).Overflows prog' := by
  cases ho with
  | @push src κ k w hrest hread hfull =>
    refine .push (w := w) (congrArg (List.map (Item.rename ρ)) hrest) (fun junk => ?_) (s.depth_rename ▸ hfull)
    exact (Src.read_rename junk { s with rest := k } src).trans (hread junk)
  | @call f k r hrest hf heven hfull =>
    refine .call (r := r.rename ρ) (congrArg (List.map (Item.rename ρ)) hrest) ?_ heven (s.depth_rename ▸ hfull)
    rw [h.find, hf, Option.map_some]

theorem State.Surely.rename (h : Rearranged ρ prog prog') {s : State} {host : σ} {out : Outcome σ}
    (hs : s.Surely prog host out) : (s.rename ρ).Surely prog' host (out.rename ρ) := by
  intro junk
  rw [State.next_rename h, hs junk, Option.map_some]

/-- **Routines with other labels in another order take the same steps.** -/
theorem Rearranged.lockstep (h : Rearranged ρ prog prog') :
    Lockstep σ prog prog' fun s s' => s' = s.rename ρ where
  cost := by
    rintro s _ rfl
    exact s.cost_rename h
  depth := by
    rintro s _ rfl
    exact s.depth_rename
  overflows := by
    rintro s _ rfl ho
    exact ho.rename h
  goes := by
    rintro s _ t host host' rfl hs
    exact ⟨t.rename ρ, hs.rename h, rfl⟩
  halts := by
    rintro s _ host host' w rfl hs
    exact hs.rename h
  fails := by
    rintro s _ host host' e rfl hs
    exact hs.rename h

end States

/-! ## Blocks -/

section Blocks

variable {r : Nat → Nat} {exit : String} {q : Subroutine} {bs : List Block}

theorem Op.opcode_rename (ρ : String → String) (o : Op) : (o.rename ρ).opcode = o.opcode := by
  cases o <;> rfl

theorem Instruction.Spells.renumber (hexit : renumberLabel r exit = exit) {i : Instruction} {o : Op}
    (h : i.Spells exit o) : (i.renumber r).Spells exit (o.rename (renumberLabel r)) := by
  refine ⟨?_, ?_⟩
  · rw [opcode_renumber, h.opcode, Op.opcode_rename]
  · cases hjump : i.opcode.isJump with
    | true =>
      rw [Instruction.renumber, if_pos hjump]
      dsimp only
      rw [h.operands]
      rw [h.opcode] at hjump
      cases o with
      | jump j l => rfl
      | exit => exact congrArg (fun l => [l]) hexit
      | combine f => cases f <;> cases hjump
      | select c => cases c <;> cases hjump
      | _ => cases hjump
    | false =>
      rw [renumber_of_not_jump r hjump, h.operands]
      rw [h.opcode] at hjump
      cases o with
      | jump j => cases j <;> cases hjump
      | _ => rfl

theorem Blocks.renumber (hexit : renumberLabel r exit = exit) {k : List Item} {code : List Instruction}
    (h : MicroC.Blocks exit k code bs) :
    MicroC.Blocks exit (k.map (Item.rename (renumberLabel r))) (code.map (Instruction.renumber r))
      (bs.map (Block.renumber r)) := by
  induction h with
  | nil => exact .nil
  | op hi _ ih => exact .op (hi.renumber hexit) ih
  | @label b ks k bs _ ih => exact .label (b := b.renumber r) ih

theorem map_renumber_of_texts {is : List Instruction} {ts : List (Opcode × List String)}
    (h : is.map Instruction.text = ts) (hts : ts ⊆ entryTexts ++ exitTexts) (r : Nat → Nat) :
    is.map (Instruction.renumber r) = is := by
  refine (List.map_congr_left fun i hi => ?_).trans (List.map_id is)
  have hmem : i.text ∈ ts := h ▸ List.mem_map_of_mem hi
  exact i.renumber_of_not_jump r (stays_of_mem_texts (hts hmem)).1

/-- **Blocks with other labels spell the routine with other labels.** -/
theorem Subroutine.Spelled.renumber (hname : labelParts? q.name = none) (h : q.Spelled bs) :
    (q.rename (renumberLabel r)).Spelled (bs.map (Block.renumber r)) := by
  obtain @⟨first, last, entry, code, inner, hfirst, hcode, hentry, hbody, hlast, hexit⟩ := h
  have hexit' := renumberLabel_of_none r (labelParts?_exitLabel q.name)
  rw [List.map_cons, List.map_append, List.map_singleton]
  refine .mk ?_ ?_ hentry (hbody.renumber hexit') ?_ ?_
  · exact (congrArg (renumberLabel r) hfirst).trans (renumberLabel_of_none r hname)
  · show first.code.map (Instruction.renumber r) = _
    rw [hcode, List.map_append, map_renumber_of_texts hentry (List.subset_append_left _ _)]
  · exact (congrArg (renumberLabel r) hlast).trans hexit'
  · show (last.code.map (Instruction.renumber r)).map _ = _
    rw [map_renumber_of_texts hexit (List.subset_append_right _ _), hexit]

end Blocks

end MicroC
