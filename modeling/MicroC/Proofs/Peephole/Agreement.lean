import MicroC.Proofs.Peephole.Rewrite
import MicroC.Proofs.Routine.Inversion

/-!
# States that agree

Two states agree on all that is known of both. An operation that goes by what is known does the same to
both of them.

* `Agree`: the same words and flags, and the same values in the registers that are known.
* **`Op.run_agree`**: operations on states that agree.
* `Op.run_below`, `Op.read_keeps`: operations between a push and the pop it is joined with.
-/

namespace MicroC

open Convention

/-- What a routine can see of its caller. -/
def Caller.view (c : Caller) : List (Option Int64) × Bool := (c.words, c.back.isNone)

theorem contextDepth_of_view {cs ds : List Caller} (h : ds.map Caller.view = cs.map Caller.view) :
    contextDepth ds = contextDepth cs := by
  induction cs generalizing ds with
  | nil => rw [List.map_eq_nil_iff.1 h]
  | cons c cs ih =>
    obtain ⟨d, ds, rfl, hd, hds⟩ := List.map_eq_cons_iff.1 h
    rw [Caller.view, Caller.view, Prod.mk.injEq] at hd
    rw [contextDepth, contextDepth, ih hds, hd.1]

/-- Two states agree on all that is known. -/
structure Agree (sh : Shape) (s t : State) : Prop where
  words : t.words = s.words
  length : s.words.length = sh.words.length
  flags : t.flags = s.flags
  regs : ∀ r, sh.facts r ≠ .nothing → t.regs r = s.regs r
  consts : ∀ r w, sh.facts r = .const w → s.regs r = w
  arity : t.routine.arity = s.routine.arity
  callers : t.callers.map Caller.view = s.callers.map Caller.view

variable {env : Setting} {sh th : Shape} {s t : State} {src : Src}

namespace Agree

theorem depth (h : Agree sh s t) : t.depth = s.depth := by
  rw [State.depth, State.depth, h.words, contextDepth_of_view h.callers]

theorem overflow (h : Agree sh s t) (junk : Junk) : t.overflow junk = s.overflow junk := by
  rw [State.overflow, State.overflow, h.depth]

theorem at_rest (h : Agree sh s t) (j k : List Item) :
    Agree sh { s with rest := j } { t with rest := k } :=
  ⟨h.words, h.length, h.flags, h.regs, h.consts, h.arity, h.callers⟩

theorem put (h : Agree sh s t) (r : Reg) {f : Fact} {w : Int64} (hf : ∀ v, f = .const v → w = v) :
    Agree (sh.put r f) (s.set r w) (t.set r w) where
  words := h.words
  length := h.length
  flags := h.flags
  regs q hq := by
    simp only [Shape.put] at hq
    rw [State.set_regs, State.set_regs]
    by_cases hr : q = r
    · rw [if_pos hr, if_pos hr]
    · rw [if_neg hr] at hq ⊢
      rw [if_neg hr]
      exact h.regs q hq
  consts q v hq := by
    simp only [Shape.put] at hq
    rw [State.set_regs]
    by_cases hr : q = r
    · rw [if_pos hr] at hq ⊢
      exact hf v hq
    · rw [if_neg hr] at hq ⊢
      exact h.consts q v hq
  arity := h.arity
  callers := h.callers

theorem put_value (h : Agree sh s t) (r : Reg) (w : Int64) :
    Agree (sh.put r .value) (s.set r w) (t.set r w) :=
  h.put r fun _ hv => by cases hv

theorem put_nothing (h : Agree sh s t) (r : Reg) (w : Int64) :
    Agree (sh.put r .nothing) (s.set r w) t where
  words := h.words
  length := h.length
  flags := h.flags
  regs q hq := by
    simp only [Shape.put] at hq
    rw [State.set_regs]
    by_cases hr : q = r
    · rw [if_pos hr] at hq
      exact absurd rfl hq
    · rw [if_neg hr] at hq ⊢
      exact h.regs q hq
  consts q v hq := by
    simp only [Shape.put] at hq
    rw [State.set_regs]
    by_cases hr : q = r
    · rw [if_pos hr] at hq
      cases hq
    · rw [if_neg hr] at hq ⊢
      exact h.consts q v hq
  arity := h.arity
  callers := h.callers

/-- Where only the words are known, states agree that differ in scratch registers at most. -/
theorem ofFresh {ks : List Kind} (words : t.words = s.words) (length : s.words.length = ks.length)
    (flags : t.flags = s.flags) (regs : ∀ r : Reg, r.isScratch = false → t.regs r = s.regs r)
    (arity : t.routine.arity = s.routine.arity) (callers : t.callers.map Caller.view = s.callers.map Caller.view) :
    Agree (.fresh ks) s t where
  words := words
  length := length
  flags := flags
  regs r hr := regs r (Shape.isScratch_of_fresh hr)
  consts _ _ hr := absurd hr Shape.facts_fresh_ne_const
  arity := arity
  callers := callers

theorem fresh (h : Agree sh s t) (hw : sh.Warm) {ks : List Kind} (hlen : ks.length = sh.words.length) :
    Agree (.fresh ks) s t :=
  .ofFresh h.words (h.length.trans hlen.symm) h.flags (fun q hq => h.regs q (hw q hq)) h.arity h.callers

theorem arguments_eq (h : Agree sh s t) (hw : sh.Warm) (n : Nat) : t.arguments n = s.arguments n := by
  have hregs : (Reg.arguments.take n).map t.regs = (Reg.arguments.take n).map s.regs :=
    List.map_congr_left fun q hq => h.regs q (hw q (Reg.isScratch_of_mem_arguments q (List.mem_of_mem_take hq)))
  rw [State.arguments, State.arguments, hregs, h.words]

theorem mono (h : Agree th s t) (hle : sh.Le th) : Agree sh s t where
  words := h.words
  length := h.length.trans (kindsLe_length hle.words)
  flags := h.flags
  regs q hq := h.regs q ((hle.facts q).ne_nothing hq)
  consts q v hq := by
    have hfact := hle.facts q
    rw [hq] at hfact
    exact h.consts q v hfact
  arity := h.arity
  callers := h.callers

end Agree

/-! ## Sources -/

theorem Src.read_agree (hok : src.ok env sh = true) (h : Agree sh s t) (junk : Junk) :
    src.read junk t = src.read junk s := by
  cases src with
  | imm w => rfl
  | reg r =>
    rw [Src.read, Src.read, h.regs r]
    simpa [Src.ok] using hok
  | slot n => rw [Src.read, Src.read, h.words]
  | param n =>
    have hc := h.callers
    rw [Src.read, Src.read, h.arity]
    cases hs : s.callers with
    | nil =>
      rw [hs] at hc
      rw [List.map_eq_nil_iff.1 hc]
    | cons c cs =>
      rw [hs] at hc
      obtain ⟨d, ds, hds, hd, -⟩ := List.map_eq_cons_iff.1 hc
      rw [Caller.view, Caller.view, Prod.mk.injEq] at hd
      rw [hds]
      dsimp only
      rw [hd.1, hd.2]

theorem Src.read_fact (h : Agree sh s t) {junk : Junk} {w v : Int64}
    (hr : src.read junk s = some (.ok w)) (hf : src.fact sh = .const v) : w = v := by
  cases src with
  | imm u =>
    cases hr
    cases hf
    rfl
  | reg r =>
    cases hr
    exact h.consts r v hf
  | slot n => cases hf
  | param n => cases hf

/-! ## Operations -/

variable {σ : Type}

/-- Outcomes that differ only in the state. -/
inductive Outcome.Alike (R : State → State → Prop) : Outcome σ → Outcome σ → Prop
  | goes {s t : State} {host : σ} (h : R s t) : Alike R (.goes s host) (.goes t host)
  | halts (w : Int64) (host : σ) : Alike R (.halts w host) (.halts w host)
  | fails (e : MachineError) (host : σ) : Alike R (.fails e host) (.fails e host)

theorem Outcome.Alike.reading {R : State → State → Prop} {x : Option (Except MachineError Int64)}
    {host : σ} {f g : Int64 → Option (Outcome σ)} {out : Outcome σ}
    (hf : ∀ w, x = some (.ok w) → f w = some out → ∃ out', g w = some out' ∧ out.Alike R out')
    (h : Outcome.reading x host f = some out) :
    ∃ out', Outcome.reading x host g = some out' ∧ out.Alike R out' := by
  match x with
  | none => cases h
  | some (.error e) =>
    cases h
    exact ⟨_, rfl, .fails e host⟩
  | some (.ok w) => exact hf w rfl h

variable [Host σ] {prog prog' : List Subroutine}

/-- **An operation on data does the same to states that agree.** -/
theorem Op.run_agree {o : Op} (ho : o.isData = true) (heff : o.effect env sh = some th) (hw : sh.Warm)
    (h : Agree sh s t) {junk : Junk} {host : σ} {out : Outcome σ} (hrun : o.run prog junk s host = some out) :
    ∃ out', o.run prog' junk t host = some out' ∧ out.Alike (Agree th) out' := by
  cases o with
  | push src k =>
    obtain ⟨hok, -, -, -, rfl⟩ := Op.effect_push.1 heff
    rw [Op.run, Src.read_agree hok h]
    refine Outcome.Alike.reading (fun w _ hout => ⟨_, rfl, ?_⟩) hrun
    rw [h.depth, h.overflow]
    cases hout
    by_cases hroom : s.depth < stackWords
    · rw [if_pos hroom, if_pos hroom]
      refine .goes ⟨?_, ?_, h.flags, h.regs, h.consts, h.arity, h.callers⟩
      · rw [h.words]
      · simp [h.length]
    · rw [if_neg hroom, if_neg hroom]
      exact .fails _ _
  | pop r =>
    obtain ⟨ks, hks, rfl⟩ := Op.effect_pop.1 heff
    rw [Op.run] at hrun ⊢
    rw [h.words]
    split at hrun
    · next w ws hws =>
      cases hrun
      refine ⟨_, rfl, .goes ?_⟩
      have hlen := h.length
      rw [hws, hks, List.length_cons, List.length_cons] at hlen
      have hagree : Agree { sh with words := ks } { s with words := ws } { t with words := ws } :=
        ⟨rfl, Nat.succ.inj hlen, h.flags, h.regs, h.consts, h.arity, h.callers⟩
      exact hagree.put_value r w
    · cases hrun
  | move src r =>
    obtain ⟨hok, rfl⟩ := Op.effect_move.1 heff
    rw [Op.run, Src.read_agree hok h]
    refine Outcome.Alike.reading (fun w hread hout => ⟨_, rfl, ?_⟩) hrun
    cases hout
    exact .goes (h.put r fun v hv => Src.read_fact h hread hv)
  | store r n =>
    obtain ⟨hr, -, rfl⟩ := Op.effect_store.1 heff
    rw [Op.run] at hrun ⊢
    rw [h.words]
    split at hrun
    · cases hrun
    · refine Outcome.Alike.reading (fun w _ hout => ⟨_, rfl, ?_⟩) hrun
      cases hout
      refine .goes ⟨?_, ?_, h.flags, h.regs, h.consts, h.arity, h.callers⟩
      · rw [h.regs r hr]
      · simp [h.length]
  | peek r =>
    obtain ⟨k, ks, -, -, rfl⟩ := Op.effect_peek.1 heff
    rw [Op.run] at hrun ⊢
    rw [h.words]
    split at hrun
    · next w ws hws =>
      cases hrun
      exact ⟨_, rfl, .goes (h.put_value r w)⟩
    · cases hrun
  | combine f src r =>
    obtain ⟨hok, hr, -, rfl⟩ := Op.effect_combine.1 heff
    rw [Op.run, Src.read_agree hok h]
    refine Outcome.Alike.reading (fun w _ hout => ⟨_, rfl, ?_⟩) hrun
    cases hout
    rw [h.regs r hr]
    exact .goes (h.put_value r _)
  | negate r =>
    obtain ⟨hr, rfl⟩ := Op.effect_negate.1 heff
    cases hrun
    refine ⟨_, rfl, ?_⟩
    rw [h.regs r hr]
    exact .goes (h.put_value r _)
  | extend =>
    obtain ⟨hr, rfl⟩ := Op.effect_extend.1 heff
    cases hrun
    refine ⟨_, rfl, ?_⟩
    rw [h.regs _ hr]
    have hput := h.put_value .rdx (signWord (s.regs .rax))
    exact .goes ⟨hput.words, hput.length, hput.flags, hput.regs, hput.consts, hput.arity, hput.callers⟩
  | divide r =>
    obtain ⟨-, hr, rfl⟩ := Op.effect_divide.1 heff
    rw [Op.run] at hrun ⊢
    rw [h.regs r hr, h.regs .rax (hw _ rfl), h.regs .rdx (hw _ rfl)]
    split at hrun
    · next hwide =>
      rw [if_pos hwide]
      refine ⟨_, rfl, ?_⟩
      cases hrun
      split
      · exact .fails _ _
      · split
        · exact .fails _ _
        · exact .goes ((h.put_value .rax _).put_value .rdx _)
    · cases hrun
  | compare src r =>
    obtain ⟨hok, hr, rfl⟩ := Op.effect_compare.1 heff
    rw [Op.run, Src.read_agree hok h]
    refine Outcome.Alike.reading (fun w _ hout => ⟨_, rfl, ?_⟩) hrun
    cases hout
    rw [h.regs r hr]
    exact .goes ⟨h.words, h.length, rfl, h.regs, h.consts, h.arity, h.callers⟩
  | select o src r =>
    obtain ⟨-, hs, hr, rfl⟩ := Op.effect_select.1 heff
    rw [Op.run] at hrun ⊢
    rw [h.flags]
    split at hrun
    · cases hrun
    · next dst x hflags =>
      cases hrun
      refine ⟨_, rfl, .goes ?_⟩
      rw [h.regs src hs]
      cases o.holds dst x with
      | true => exact h.put_value r _
      | false =>
        -- Both registers keep their value, which is the same.
        have hkept := h.put_value r (s.regs r)
        rwa [s.set_self r, ← h.regs r hr, t.set_self r] at hkept
  | grow =>
    obtain ⟨-, rfl⟩ := Op.effect_grow.1 heff
    cases hrun
    refine ⟨_, rfl, .goes ⟨?_, ?_, h.flags, h.regs, h.consts, h.arity, h.callers⟩⟩
    · rw [h.words]
    · simp [h.length]
  | shrink n =>
    obtain ⟨-, rfl⟩ := Op.effect_shrink.1 heff
    rw [Op.run] at hrun ⊢
    rw [h.words]
    split at hrun
    · next hn =>
      cases hrun
      rw [if_pos hn]
      refine ⟨_, rfl, .goes ⟨rfl, ?_, h.flags, h.regs, h.consts, h.arity, h.callers⟩⟩
      simp [h.length]
    · cases hrun
  | nop =>
    obtain rfl := Op.effect_nop.1 heff
    cases hrun
    exact ⟨_, rfl, .goes h⟩
  | jump j l => cases ho
  | exit => cases ho
  | call f => cases ho

/-! ## Between a push and its pop -/

theorem lt_of_isVariable {ks : List Kind} {n : Nat} (h : Src.isVariable env ks n = true) : n < ks.length := by
  unfold Src.isVariable at h
  split at h
  · next hk => exact lt_of_under hk
  · next hk => exact lt_of_under hk
  · cases h

theorem Src.read_below (hok : src.ok env sh = true) (hlen : s.words.length = sh.words.length) (junk : Junk)
    (w : Option Int64) : src.read junk { s with words := w :: s.words } = src.read junk s := by
  cases src with
  | slot n =>
    have hn := lt_of_isVariable hok
    rw [Src.read, Src.read]
    dsimp only
    rw [under_cons, if_neg (by omega)]
  | _ => rfl

/-- An operation that leaves the source of a push alone does not see the word that was pushed. -/
theorem Op.run_below {o : Op} (hkeep : o.keeps src = true) (heff : o.effect env sh = some th)
    (hlen : s.words.length = sh.words.length) {w : Option Int64} {junk : Junk} {host : σ} {out : Outcome σ}
    (hrun : o.run prog junk { s with words := w :: s.words } host = some out) :
    ∃ out', o.run prog junk s host = some out' ∧
      out.Alike (fun s' s'' => s' = { s'' with words := w :: s''.words }) out' := by
  cases o with
  | nop =>
    cases hrun
    exact ⟨_, rfl, .goes rfl⟩
  | move src' r =>
    obtain ⟨hok, -⟩ := Op.effect_move.1 heff
    rw [Op.run, Src.read_below hok hlen] at hrun
    refine Outcome.Alike.reading (fun v _ hout => ⟨_, rfl, ?_⟩) hrun
    cases hout
    exact .goes rfl
  | store r n =>
    obtain ⟨-, hvar, -⟩ := Op.effect_store.1 heff
    have hn : n < s.words.length := by
      have := lt_of_isVariable hvar
      omega
    rw [Op.run] at hrun ⊢
    dsimp only at hrun
    rw [under_cons, if_neg (by omega)] at hrun
    cases hv : under s.words n with
    | none =>
      rw [hv] at hrun
      cases hrun
    | some v =>
      rw [hv] at hrun
      refine Outcome.Alike.reading (fun u _ hout => ⟨_, rfl, ?_⟩) hrun
      cases hout
      rw [setUnder_cons hn]
      exact .goes rfl
  | _ => cases hkeep

/-- An operation that leaves a source alone does not change its value. -/
theorem Op.read_keeps {o : Op} (hkeep : o.keeps src = true) {junk : Junk} {host host' : σ} {t' : State}
    (hrun : o.run prog junk t host = some (.goes t' host')) (junk' : Junk) :
    src.read junk' t' = src.read junk' t := by
  cases o with
  | nop =>
    cases hrun
    rfl
  | move src' r =>
    obtain ⟨w, -, hw⟩ := Outcome.reading_goes hrun
    cases hw
    cases src with
    | reg q =>
      have hq : q ≠ r := by simpa [Op.keeps] using hkeep
      rw [Src.read, Src.read, State.set_regs, if_neg hq]
    | _ => rfl
  | store r n =>
    rw [Op.run] at hrun
    split at hrun
    · cases hrun
    · obtain ⟨w, -, hw⟩ := Outcome.reading_goes hrun
      cases hw
      cases src with
      | imm v => rfl
      | reg q => rfl
      | slot m => cases hkeep
      | param m => cases hkeep
  | _ => cases hkeep

end MicroC
