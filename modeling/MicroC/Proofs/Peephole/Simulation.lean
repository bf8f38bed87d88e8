import MicroC.Proofs.Peephole.Agreement
import MicroC.Proofs.Routine.Steady

/-!
# Rewritten programs do the same

A step of a program is a step of the rewritten program, or none. So a run of the rewritten program comes
to the same end, and not later.

* `Turns`: programs whose routines are rewritten.
* `Sim`: states of both programs at the same place.
* `Sim.follows`: one step.
* **`Finishes.turn`**: whole runs.
-/

namespace MicroC

open Convention

/-! ## Programs -/

section Programs

variable (base : List Subroutine) (mode : Mode)

/-- A routine and what it is rewritten to. -/
def Twin (r r' : Subroutine) : Prop :=
  ∃ k, r' = { r with body := k } ∧ Rewrite (setting base mode r) none (.fresh []) r.body k

/-- The routines of a program are rewritten, with the number of arguments of a function as in another
program. -/
inductive Turns : List Subroutine → List Subroutine → Prop
  | nil : Turns [] []
  | cons {r r' : Subroutine} {rs rs' : List Subroutine} (h : Twin base mode r r') (hs : Turns rs rs') :
      Turns (r :: rs) (r' :: rs')

variable {base mode} {prog prog' : List Subroutine} {r r' : Subroutine}

theorem Twin.name (h : Twin base mode r r') : r'.name = r.name := by
  obtain ⟨k, rfl, -⟩ := h
  rfl

theorem Twin.arity (h : Twin base mode r r') : r'.arity = r.arity := by
  obtain ⟨k, rfl, -⟩ := h
  rfl

theorem Twin.labels_eq (h : Twin base mode r r') : labels r'.body = labels r.body := by
  obtain ⟨k, rfl, hk⟩ := h
  exact hk.labels_eq

theorem Twin.setting_eq (h : Twin base mode r r') : setting base mode r' = setting base mode r := by
  rw [setting, setting, h.labels_eq, h.arity]

theorem Twin.refl (h : Check (setting base mode r) (.fresh []) r.body) : Twin base mode r r :=
  ⟨r.body, rfl, .refl h⟩

theorem Turns.find? (h : Turns base mode prog prog') (f : String) :
    (prog.find? (·.name == f) = none ∧ prog'.find? (·.name == f) = none) ∨
      ∃ r r', prog.find? (·.name == f) = some r ∧ prog'.find? (·.name == f) = some r' ∧ Twin base mode r r' := by
  induction h with
  | nil => exact .inl ⟨rfl, rfl⟩
  | @cons r r' rs rs' hr hs ih =>
    rw [List.find?_cons, List.find?_cons, hr.name]
    cases hf : r.name == f with
    | true => exact .inr ⟨r, r', rfl, rfl, hr⟩
    | false => exact ih

theorem Turns.mem (h : Turns base mode prog prog') (hr : r' ∈ prog') :
    ∃ r ∈ prog, Twin base mode r r' := by
  induction h with
  | nil => cases hr
  | @cons q q' rs rs' hq hs ih =>
    rcases List.mem_cons.1 hr with rfl | hr
    · exact ⟨q, List.mem_cons_self, hq⟩
    · obtain ⟨r, hr, htwin⟩ := ih hr
      exact ⟨r, List.mem_cons_of_mem _ hr, htwin⟩

theorem Turns.arityOf (h : Turns base mode prog prog') : arityOf prog' = arityOf prog := by
  funext f
  unfold MicroC.arityOf
  rcases h.find? f with ⟨hnone, hnone'⟩ | ⟨r, r', hr, hr', htwin⟩
  · rw [hnone, hnone']
  · rw [hr, hr']
    exact congrArg some htwin.arity

/-- **A rewritten program is in order.** -/
theorem Turns.inOrder (h : Turns base mode prog prog') (hbase : MicroC.arityOf prog = MicroC.arityOf base)
    (hin : InOrder prog mode) : InOrder prog' mode := by
  have hsetting : ∀ r, setting prog' mode r = setting base mode r := by
    intro r
    rw [setting, setting, h.arityOf, hbase]
  refine ⟨fun r' hr' => ?_, fun r' hr' => ?_⟩
  · obtain ⟨r, hr, htwin⟩ := h.mem hr'
    rw [hsetting, htwin.setting_eq]
    obtain ⟨k, rfl, hk⟩ := htwin
    exact hk.check
  · obtain ⟨r, hr, htwin⟩ := h.mem hr'
    rw [htwin.labels_eq]
    exact hin.labels r hr

end Programs

/-! ## States -/

section States

variable (base : List Subroutine) (mode : Mode)

/-- Callers at the same places. -/
inductive Twins : List Caller → List Caller → Prop
  | outermost (regs regs' : Reg → Int64) (ws : List (Option Int64)) :
      Twins [⟨none, regs, ws⟩] [⟨none, regs', ws⟩]
  | call {r r' : Subroutine} {j k : List Item} {ks : List Kind} {regs regs' : Reg → Int64}
      {ws : List (Option Int64)} {cs ds : List Caller} (hr : Twin base mode r r')
      (h : Rewrite (setting base mode r) none (.fresh ks) j k) (hlen : ws.length = ks.length)
      (hregs : ∀ q, q.isScratch = false → regs' q = regs q) (hs : Twins cs ds) :
      Twins (⟨some (r, j), regs, ws⟩ :: cs) (⟨some (r', k), regs', ws⟩ :: ds)

/-- The items left of two states, and what is known there. -/
inductive Aligned (s t : State) : Prop
  | level {sh : Shape} (hw : sh.Warm) (h : Rewrite (setting base mode s.routine) none sh s.rest t.rest)
      (ha : Agree sh s t)
  /-- The first state has pushed what the second one will read. -/
  | ahead {sh : Shape} {src : Src} {v : Int64} {u : State} (hw : sh.Warm)
      (h : Rewrite (setting base mode s.routine) (some src) sh s.rest t.rest)
      (hs : s = { u with words := some v :: u.words }) (ha : Agree sh u t)
      (hv : ∀ junk, src.read junk t = some (.ok v))

/-- States of both programs at the same place. -/
structure Sim (prog prog' : List Subroutine) (s t : State) : Prop where
  sound : Sound prog mode s
  sound' : Sound prog' mode t
  routine : Twin base mode s.routine t.routine
  callers : Twins base mode s.callers t.callers
  aligned : Aligned base mode s t

end States

variable {base : List Subroutine} {mode : Mode} {prog prog' : List Subroutine} {s t s' t' : State}

theorem Twins.view {cs ds : List Caller} (h : Twins base mode cs ds) :
    ds.map Caller.view = cs.map Caller.view := by
  induction h with
  | outermost regs regs' ws => rfl
  | call hr _ _ _ _ ih => simp [Caller.view, ih]

/-! ## One step -/

variable {σ : Type} [Host σ]

theorem Sound.goes (h : Sound prog mode s) (hin : InOrder prog mode) {junk : Junk} {host host' : σ}
    (hnext : s.next prog junk host = some (.goes t host')) : Sound prog mode t := by
  obtain ⟨out, hout, hsafe⟩ := h.next hin junk host
  rw [hnext] at hout
  cases hout
  exact hsafe

variable (base mode prog prog') in
/-- The second state does what the first one does, in no more than `n` instructions, or need not do
anything. -/
def Follows (n : Nat) (t : State) (junk : Junk) (host : σ) (out : Outcome σ) : Prop :=
  (∃ out', t.next prog' junk host = some out' ∧ out.Alike (Sim base mode prog prog') out' ∧
      t.cost prog' ≤ n) ∨
    ∃ s', out = .goes s' host ∧ Sim base mode prog prog' s' t

section Step

variable {junk : Junk} {host host' : σ} {out : Outcome σ}

theorem next_op {o : Op} {k : List Item} (hs : s.rest = .op o :: k) :
    s.next prog junk host = o.run prog junk { s with rest := k } host := by
  rw [State.next, hs]

theorem cost_op {o : Op} {k : List Item} (ho : o.isData = true) (hs : s.rest = .op o :: k) :
    s.cost prog = 1 := by
  rw [State.cost, hs]
  cases o <;> first | rfl | cases ho

theorem Follows.both (hin : InOrder prog mode) (hin' : InOrder prog' mode)
    (h : Sim base mode prog prog' s t) (hnext : s.next prog junk host = some (.goes s' host'))
    (hnext' : t.next prog' junk host = some (.goes t' host')) (hcost : t.cost prog' ≤ s.cost prog)
    (hr : Twin base mode s'.routine t'.routine) (hc : Twins base mode s'.callers t'.callers)
    (ha : Aligned base mode s' t') :
    Follows base mode prog prog' (s.cost prog) t junk host (.goes s' host') :=
  .inl ⟨_, hnext', .goes ⟨h.sound.goes hin hnext, h.sound'.goes hin' hnext', hr, hc, ha⟩, hcost⟩

theorem Sim.follows_leave (hin : InOrder prog mode) (hin' : InOrder prog' mode)
    (h : Sim base mode prog prog' s t) {sh : Shape} (hw : sh.Warm) (ha : Agree sh s t)
    (hs : s.rest = []) (ht : t.rest = []) (hnext : s.next prog junk host = some out) :
    Follows base mode prog prog' (s.cost prog) t junk host out := by
  have hcost : t.cost prog' ≤ s.cost prog := Nat.le_of_eq (by rw [State.cost, State.cost, hs, ht])
  have hleave : s.leave host = some out := by
    rw [← hnext, State.next, hs]
  have hleave' : t.next prog' junk host = t.leave host := by
    rw [State.next, ht]
  have hknown : ∀ q : Reg, q.isScratch = false → t.regs q = s.regs q := fun q hq => ha.regs q (hw q hq)
  have hcs := h.callers
  unfold State.leave at hleave hleave'
  generalize hsc : s.callers = cs at hleave hcs
  generalize htc : t.callers = ds at hleave' hcs
  cases hcs with
  | outermost regs regs' ws =>
    cases hleave
    refine .inl ⟨_, hleave', ?_, hcost⟩
    rw [hknown .rax rfl]
    exact .halts _ _
  | @call r r' j k ks regs regs' ws cs ds hr hjk hlen hregs hs' =>
    cases hleave
    refine .both hin hin' h hnext hleave' hcost hr hs' (.level (Shape.warm_fresh ks) hjk ?_)
    refine .ofFresh rfl hlen ha.flags (fun q hq => ?_) hr.arity hs'.view
    simp only [restored]
    split
    · exact hregs q hq
    · exact hknown q hq

theorem Sim.follows_data {o : Op} (ho : o.isData = true) (hin : InOrder prog mode)
    (hin' : InOrder prog' mode) (h : Sim base mode prog prog' s t) {sh th : Shape} {j k : List Item}
    (hs : s.rest = .op o :: j) (ht : t.rest = .op o :: k)
    (heff : o.effect (setting base mode s.routine) sh = some th) (hw : sh.Warm) (ha : Agree sh s t)
    (hjk : Rewrite (setting base mode s.routine) none th j k)
    (hnext : s.next prog junk host = some out) :
    Follows base mode prog prog' (s.cost prog) t junk host out := by
  have hrun := (next_op hs).symm.trans hnext
  have hcost : t.cost prog' ≤ s.cost prog := Nat.le_of_eq (by rw [cost_op ho hs, cost_op ho ht])
  obtain ⟨out', hout', halike⟩ :
      ∃ out', o.run prog' junk { t with rest := k } host = some out' ∧ out.Alike (Agree th) out' :=
    Op.run_agree ho heff hw (ha.at_rest j k) hrun
  have hout'' := (next_op ht).trans hout'
  cases halike with
  | halts w host => exact .inl ⟨_, hout'', .halts w host, hcost⟩
  | fails e host => exact .inl ⟨_, hout'', .fails e host, hcost⟩
  | goes hagree =>
    obtain ⟨hp, rfl⟩ := Op.samePlace ho hrun
    obtain ⟨hp', -⟩ := Op.samePlace ho hout'
    refine .both hin hin' h hnext hout'' hcost ?_ ?_ (.level (Op.effect_warm heff hw) ?_ hagree)
    · rw [hp.routine, hp'.routine]
      exact h.routine
    · rw [hp.callers, hp'.callers]
      exact h.callers
    · rw [hp.routine, hp.rest, hp'.rest]
      exact hjk

theorem Sim.follows_jump {x : Jump} {l : String} (hin : InOrder prog mode) (hin' : InOrder prog' mode)
    (h : Sim base mode prog prog' s t) {sh th : Shape} {j k : List Item}
    (hs : s.rest = .op (.jump x l) :: j) (ht : t.rest = .op (.jump x l) :: k)
    (heff : (Op.jump x l).effect (setting base mode s.routine) sh = some th) (hw : sh.Warm)
    (ha : Agree sh s t) (hjk : Rewrite (setting base mode s.routine) none th j k)
    (hnext : s.next prog junk host = some out) :
    Follows base mode prog prog' (s.cost prog) t junk host out := by
  obtain ⟨-, ⟨ks, hl, hle⟩, rfl⟩ := Op.effect_jump.1 heff
  have hcost : t.cost prog' ≤ s.cost prog := Nat.le_of_eq (by rw [State.cost, State.cost, hs, ht])
  have hrun := (next_op hs).symm.trans hnext
  have hrun' : t.next prog' junk host = _ := next_op ht
  rw [Op.run] at hrun hrun'
  dsimp only at hrun hrun'
  cases htaken : x.taken? s.flags with
  | none =>
    rw [htaken] at hrun
    cases hrun
  | some b =>
    have htaken' : x.taken? t.flags = some b := by rw [ha.flags, htaken]
    rw [htaken] at hrun
    rw [htaken'] at hrun'
    cases b with
    | false =>
      cases hrun
      exact .both hin hin' h hnext hrun' hcost h.routine h.callers
        (.level (Shape.warm_fresh _) hjk ((ha.at_rest j k).fresh hw rfl))
    | true =>
      obtain ⟨body, htwin, hbody⟩ := h.routine
      obtain ⟨j', k', hj, hk, hjk'⟩ := hbody.behind (hin.labels _ h.sound.routine) hl
      have hk' : behind l t.routine.body = some k' := by
        rw [htwin]
        exact hk
      dsimp only at hrun hrun'
      rw [hj] at hrun
      rw [hk'] at hrun'
      cases hrun
      exact .both hin hin' h hnext hrun' hcost h.routine h.callers
        (.level (Shape.warm_fresh _) hjk' ((ha.at_rest j' k').fresh hw (kindsLe_length hle).symm))

/-- A function of the host gets the same arguments. -/
theorem Sim.follows_host {f : String} (hin : InOrder prog mode) (hin' : InOrder prog' mode)
    (h : Sim base mode prog prog' s t) {sh : Shape} {j k : List Item} (hs : s.rest = .op (.call f) :: j)
    (ht : t.rest = .op (.call f) :: k) (hw : sh.Warm) (ha : Agree sh s t)
    (hjk : Rewrite (setting base mode s.routine) none (.fresh sh.words) j k)
    (hnone : prog.find? (·.name == f) = none) (hnone' : prog'.find? (·.name == f) = none)
    (hnext : s.next prog junk host = some out) (hcall : State.call prog junk f { s with rest := j } host = some out)
    (hcall' : t.next prog' junk host = State.call prog' junk f { t with rest := k } host) :
    Follows base mode prog prog' (s.cost prog) t junk host out := by
  have hcost : t.cost prog' ≤ s.cost prog := by
    rw [State.cost, State.cost, hs, ht]
    simp [hnone, hnone']
  have hargs := (ha.at_rest j k).arguments_eq hw
  rw [State.call, hnone] at hcall
  rw [State.call, hnone'] at hcall'
  dsimp only at hcall hcall'
  cases hi : Intrinsic.ofName? f with
  | none =>
    rw [hi] at hcall
    cases hcall
  | some i =>
    rw [hi] at hcall hcall'
    dsimp only at hcall hcall'
    rw [hargs] at hcall'
    cases hvs : State.arguments { s with rest := j } i.arity with
    | none =>
      rw [hvs] at hcall
      cases hcall
    | some args =>
      rw [hvs] at hcall hcall'
      dsimp only at hcall hcall'
      generalize i.call args host = answer at hcall hcall'
      obtain ⟨_ | w, host'⟩ := answer
      · cases hcall
        exact .inl ⟨_, hcall', .fails _ host', hcost⟩
      · cases hcall
        refine .both hin hin' h hnext hcall' hcost h.routine h.callers (.level (Shape.warm_fresh _) hjk ?_)
        exact ((ha.at_rest j k).put_value .rax w).fresh (hw.value .rax) rfl

/-- A routine is entered on the same words, and so is its twin. -/
theorem Sim.follows_enter {f : String} {r r' : Subroutine} (hin : InOrder prog mode) (hin' : InOrder prog' mode)
    (h : Sim base mode prog prog' s t) {sh : Shape} {j k : List Item} (hs : s.rest = .op (.call f) :: j)
    (ht : t.rest = .op (.call f) :: k) (hw : sh.Warm) (ha : Agree sh s t)
    (hjk : Rewrite (setting base mode s.routine) none (.fresh sh.words) j k) (htwin : Twin base mode r r')
    (hr : prog.find? (·.name == f) = some r) (hr' : prog'.find? (·.name == f) = some r')
    (hnext : s.next prog junk host = some out) (hcall : State.call prog junk f { s with rest := j } host = some out)
    (hcall' : t.next prog' junk host = State.call prog' junk f { t with rest := k } host) (hplain : out.Plain) :
    Follows base mode prog prog' (s.cost prog) t junk host out := by
  have hcost : t.cost prog' ≤ s.cost prog := by
    rw [State.cost, State.cost, hs, ht]
    simp [hr, hr']
  have hdepth : State.depth { t with rest := k } = State.depth { s with rest := j } := (ha.at_rest j k).depth
  rw [State.call, hr] at hcall
  rw [State.call, hr'] at hcall'
  dsimp only at hcall hcall'
  rw [hdepth, ha.words] at hcall'
  split at hcall
  · next hroom =>
    rw [if_pos hroom] at hcall'
    cases hcall
    have hknown : ∀ q : Reg, q.isScratch = false → t.regs q = s.regs q := fun q hq => ha.regs q (hw q hq)
    have hcallers : Twins base mode (⟨some (s.routine, j), s.regs, s.words⟩ :: s.callers)
        (⟨some (t.routine, k), t.regs, s.words⟩ :: t.callers) :=
      .call h.routine hjk ha.length hknown h.callers
    refine .both hin hin' h hnext hcall' hcost htwin hcallers (.level (Shape.warm_fresh []) ?_ ?_)
    · obtain ⟨body, rfl, hbody⟩ := htwin
      exact hbody
    · exact .ofFresh rfl rfl ha.flags hknown htwin.arity hcallers.view
  · cases hcall
    rw [Outcome.Plain, State.overflow_ofStack] at hplain
    cases hplain

theorem Sim.follows_call {f : String} (hprog : Turns base mode prog prog') (hin : InOrder prog mode)
    (hin' : InOrder prog' mode) (h : Sim base mode prog prog' s t) {sh th : Shape} {j k : List Item}
    (hs : s.rest = .op (.call f) :: j) (ht : t.rest = .op (.call f) :: k)
    (heff : (Op.call f).effect (setting base mode s.routine) sh = some th) (hw : sh.Warm)
    (ha : Agree sh s t) (hjk : Rewrite (setting base mode s.routine) none th j k)
    (hnext : s.next prog junk host = some out) (hplain : out.Plain) :
    Follows base mode prog prog' (s.cost prog) t junk host out := by
  obtain ⟨n, -, -, -, -, rfl⟩ := Op.effect_call.1 heff
  have hcall := (next_op hs).symm.trans hnext
  have hcall' : t.next prog' junk host = _ := next_op ht
  rw [Op.run] at hcall hcall'
  dsimp only at hcall hcall'
  split at hcall
  · next heven =>
    rw [if_pos (show t.words.length % 2 = 0 by rw [ha.words, heven])] at hcall'
    rcases hprog.find? f with ⟨hnone, hnone'⟩ | ⟨r, r', hr, hr', htwin⟩
    · exact h.follows_host hin hin' hs ht hw ha hjk hnone hnone' hnext hcall hcall'
    · exact h.follows_enter hin hin' hs ht hw ha hjk htwin hr hr' hnext hcall hcall' hplain
  · cases hcall

/-- Different operations on data, none of which fails. -/
theorem Sim.follows_other {o o' : Op} (ho : o.isData = true) (ho' : o'.isData = true)
    (hin : InOrder prog mode) (hin' : InOrder prog' mode) (h : Sim base mode prog prog' s t)
    {j k : List Item} (hs : s.rest = .op o :: j) (ht : t.rest = .op o' :: k)
    (hrun : o.run prog junk { s with rest := j } host = some (.goes s' host))
    (hrun' : o'.run prog' junk { t with rest := k } host = some (.goes t' host))
    (ha : Aligned base mode s' t') :
    Follows base mode prog prog' (s.cost prog) t junk host (.goes s' host) := by
  have hcost : t.cost prog' ≤ s.cost prog := Nat.le_of_eq (by rw [cost_op ho hs, cost_op ho' ht])
  obtain ⟨hp, -⟩ := Op.samePlace ho hrun
  obtain ⟨hp', -⟩ := Op.samePlace ho' hrun'
  refine .both hin hin' h ((next_op hs).trans hrun) ((next_op ht).trans hrun') hcost ?_ ?_ ha
  · rw [hp.routine, hp'.routine]
    exact h.routine
  · rw [hp.callers, hp'.callers]
    exact h.callers

/-- A push whose word is not put on the stack any more. -/
theorem Sim.follows_hold {src : Src} (hstrict : mode.strict = true) (hin : InOrder prog mode)
    (hin' : InOrder prog' mode) (h : Sim base mode prog prog' s t) {sh : Shape} {j k : List Item}
    (hs : s.rest = .op (.push src .temp) :: j) (ht : t.rest = .op .nop :: k)
    (hok : src.ok (setting base mode s.routine) sh = true) (hw : sh.Warm)
    (hjk : Rewrite (setting base mode s.routine) (some src) sh j k) (ha : Agree sh s t)
    (hnext : s.next prog junk host = some out) (hplain : out.Plain) :
    Follows base mode prog prog' (s.cost prog) t junk host out := by
  have hrun := (next_op hs).symm.trans hnext
  obtain ⟨x, hx⟩ : ∃ x, ∀ junk, src.read junk s = some x := by
    obtain ⟨sh₀, hcheck, hshaped, -⟩ := h.sound.shape
    rw [hs] at hcheck
    obtain ⟨th, heff, -⟩ := hcheck
    exact Src.read_steady hstrict hshaped h.sound.callers (Op.effect_push.1 heff).1
  rw [Op.run, show src.read junk { s with rest := j } = some x from hx junk] at hrun
  cases x with
  | error e =>
    cases hrun
    rw [Outcome.Plain, Src.ofStack_of_read (hx junk)] at hplain
    cases hplain
  | ok v =>
    rw [Outcome.reading, Option.some.injEq] at hrun
    split at hrun
    · next hroom =>
      cases hrun
      refine h.follows_other rfl rfl hin hin' hs ht ?_ rfl
        (.ahead (u := { s with rest := j }) hw hjk rfl (ha.at_rest j k) fun junk' => ?_)
      · rw [Op.run, show src.read junk { s with rest := j } = some (.ok v) from hx junk, Outcome.reading,
          if_pos hroom]
      · rw [← hx junk', ← Src.read_agree hok ha junk']
        rfl
    · cases hrun
      rw [Outcome.Plain, State.overflow_ofStack] at hplain
      cases hplain

/-- States at the same level. -/
theorem Sim.follows_level (hprog : Turns base mode prog prog') (hstrict : mode.strict = true)
    (hin : InOrder prog mode) (hin' : InOrder prog' mode) (h : Sim base mode prog prog' s t) {sh : Shape}
    (hw : sh.Warm) (hr : Rewrite (setting base mode s.routine) none sh s.rest t.rest) (ha : Agree sh s t)
    (hnext : s.next prog junk host = some out) (hplain : out.Plain) :
    Follows base mode prog prog' (s.cost prog) t junk host out := by
  generalize hs : s.rest = j at hr
  generalize ht : t.rest = k at hr
  cases hr with
  | nil => exact h.follows_leave hin hin' hw ha hs ht hnext
  | @label l ks sh j k hle hjk =>
    have hcost : t.cost prog' ≤ s.cost prog := Nat.le_of_eq (by rw [State.cost, State.cost, hs, ht])
    have hout := next_label hs hnext
    subst hout
    have hnext' : t.next prog' junk host = some (.goes { t with rest := k } host) := by
      rw [State.next, ht]
    exact .both hin hin' h hnext hnext' hcost h.routine h.callers
      (.level (Shape.warm_fresh ks) hjk ((ha.at_rest j k).fresh hw (kindsLe_length hle).symm))
  | @op o sh th j k heff hjk =>
    cases o with
    | jump x l => exact h.follows_jump hin hin' hs ht heff hw ha hjk hnext
    | call f => exact h.follows_call hprog hin hin' hs ht heff hw ha hjk hnext hplain
    | exit =>
      have hcost : t.cost prog' ≤ s.cost prog := Nat.le_of_eq (by rw [State.cost, State.cost, hs, ht])
      have hrun := (next_op hs).symm.trans hnext
      cases hrun
      exact .both hin hin' h hnext (next_op ht) hcost h.routine h.callers (.level hw .nil (ha.at_rest [] []))
    | _ => exact h.follows_data rfl hin hin' hs ht heff hw ha hjk hnext
  | @drop sh j k hjk =>
    have hrun := (next_op hs).symm.trans hnext
    cases hrun
    refine .inr ⟨_, rfl, h.sound.goes hin hnext, h.sound', h.routine, h.callers, .level hw ?_ (ha.at_rest j t.rest)⟩
    rw [ht]
    exact hjk
  | @fold f q r w sh th j k hq heff hjk =>
    obtain ⟨-, hr, -, rfl⟩ := Op.effect_combine.1 heff
    have hrun := (next_op hs).symm.trans hnext
    cases hrun
    refine h.follows_other rfl rfl hin hin' hs ht rfl rfl (.level (hw.value r) hjk ?_)
    rw [ha.consts q w hq, ha.regs r hr]
    exact (ha.at_rest j k).put_value r _
  | @unload r w sh j k hr hjk =>
    have hrun := (next_op hs).symm.trans hnext
    cases hrun
    have hw' : (sh.put r .nothing).Warm := by
      intro q hq
      have hne : q ≠ r := by
        rintro rfl
        rw [hr] at hq
        cases hq
      simp only [Shape.put, if_neg hne]
      exact hw q hq
    exact h.follows_other rfl rfl hin hin' hs ht rfl rfl
      (.level hw' hjk ((ha.at_rest j k).put_nothing r w))
  | @still r sh j k hjk =>
    have hrun := (next_op hs).symm.trans hnext
    have hstill : (Op.move (.reg r) r).run prog junk { s with rest := j } host =
        some (.goes { s with rest := j } host) := by
      show some (Outcome.goes (({ s with rest := j } : State).set r (s.regs r)) host) = _
      rw [show s.regs r = ({ s with rest := j } : State).regs r from rfl, State.set_self]
    rw [hstill] at hrun
    cases hrun
    refine h.follows_other rfl rfl hin hin' hs ht hstill rfl
      (.level ?_ hjk ((ha.at_rest j k).mono (sh.put_self_le r)))
    intro q hq
    simp only [Shape.put]
    split
    · next heq => exact heq ▸ hw q hq
    · exact hw q hq
  | @hold src sh j k hok hjk => exact h.follows_hold hstrict hin hin' hs ht hok hw hjk ha hnext hplain

/-- The first state has pushed what the second one will read. -/
theorem Sim.follows_ahead (hin : InOrder prog mode) (hin' : InOrder prog' mode)
    (h : Sim base mode prog prog' s t) {sh : Shape} {src : Src} {v : Int64} {u : State} (hw : sh.Warm)
    (hr : Rewrite (setting base mode s.routine) (some src) sh s.rest t.rest)
    (hu : s = { u with words := some v :: u.words }) (ha : Agree sh u t)
    (hv : ∀ junk, src.read junk t = some (.ok v)) (hnext : s.next prog junk host = some out) :
    Follows base mode prog prog' (s.cost prog) t junk host out := by
  generalize hs : s.rest = j at hr
  generalize ht : t.rest = k at hr
  have hrou : u.routine = s.routine := by rw [hu]
  cases hr with
  | @pass _ o sh th j k hkeep heff hjk =>
    have ho := Op.isData_of_keeps hkeep
    have hrun := (next_op hs).symm.trans hnext
    have hcost : t.cost prog' ≤ s.cost prog := Nat.le_of_eq (by rw [cost_op ho hs, cost_op ho ht])
    have hrun' : o.run prog junk { { u with rest := j } with words := some v :: u.words } host = some out := by
      rw [← hrun, hu]
    obtain ⟨out₁, hout₁, halike₁⟩ := Op.run_below (s := { u with rest := j }) hkeep heff ha.length hrun'
    obtain ⟨out₂, hout₂, halike₂⟩ :
        ∃ out', o.run prog' junk { t with rest := k } host = some out' ∧ out₁.Alike (Agree th) out' :=
      Op.run_agree ho heff hw (ha.at_rest j k) hout₁
    have hnext₂ := (next_op ht).trans hout₂
    cases halike₁ with
    | halts w host =>
      cases halike₂
      exact .inl ⟨_, hnext₂, .halts w host, hcost⟩
    | fails e host =>
      cases halike₂
      exact .inl ⟨_, hnext₂, .fails e host, hcost⟩
    | @goes s₁ u₁ _ hs₁ =>
      cases halike₂ with
      | @goes _ t₁ _ hagree =>
        obtain ⟨hp, rfl⟩ := Op.samePlace ho hrun
        obtain ⟨hp', -⟩ := Op.samePlace ho hout₂
        have hrest : Rewrite (setting base mode s₁.routine) (some src) th s₁.rest t₁.rest := by
          rw [hp.routine, hp.rest, hp'.rest]
          exact hjk
        refine .both hin hin' h hnext hnext₂ hcost ?_ ?_
          (.ahead (Op.effect_warm heff hw) hrest hs₁ hagree fun junk' => ?_)
        · rw [hp.routine, hp'.routine]
          exact h.routine
        · rw [hp.callers, hp'.callers]
          exact h.callers
        · rw [Op.read_keeps hkeep hout₂ junk']
          exact hv junk'
  | @release _ r sh j k hok hjk =>
    have hrun := (next_op hs).symm.trans hnext
    have hrun' : (Op.pop r).run prog junk { s with rest := j } host =
        some (.goes (({ u with rest := j } : State).set r v) host) := by
      rw [hu]
      rfl
    have hmove : (Op.move src r).run prog' junk { t with rest := k } host =
        some (.goes (({ t with rest := k } : State).set r v) host) := by
      rw [Op.run, show src.read junk { t with rest := k } = some (.ok v) from hv junk]
      rfl
    rw [hrun'] at hrun
    cases hrun
    refine h.follows_other rfl rfl hin hin' hs ht hrun' hmove (.level (hw.put r (Src.fact_ne_nothing hok)) ?_ ?_)
    · exact hrou ▸ hjk
    · have hread : src.read junk u = some (.ok v) := by
        rw [← Src.read_agree hok ha junk]
        exact hv junk
      exact (ha.at_rest j k).put r fun w hf => Src.read_fact ha hread hf

/-- **The rewritten program follows.** -/
theorem Sim.follows (hprog : Turns base mode prog prog') (hstrict : mode.strict = true)
    (hin : InOrder prog mode) (hin' : InOrder prog' mode) (h : Sim base mode prog prog' s t)
    (hnext : s.next prog junk host = some out) (hplain : out.Plain) :
    Follows base mode prog prog' (s.cost prog) t junk host out := by
  cases h.aligned with
  | level hw hr ha => exact h.follows_level hprog hstrict hin hin' hw hr ha hnext hplain
  | ahead hw hr hu ha hv => exact h.follows_ahead hin hin' hw hr hu ha hv hnext

end Step

/-! ## Whole runs -/

/-- **A run of the rewritten program comes to the same end, and not later.** -/
theorem Finishes.turn (hprog : Turns base mode prog prog') (hstrict : mode.strict = true)
    (hin : InOrder prog mode) (hin' : InOrder prog' mode) {n : Nat} {host host' : σ}
    {res : Except MachineError Int64} (he : Finishes prog n s host res host')
    (hres : ∀ e, res = .error e → e.ofStack = false) (h : Sim base mode prog prog' s t) :
    ∃ m ≤ n, Finishes prog' m t host res host' := by
  have hjunk : Junk := .none
  induction he generalizing t with
  | @halt s host host' w hs =>
    rcases h.follows hprog hstrict hin hin' (hs hjunk) trivial with ⟨out, hout, halike, hcost⟩ | ⟨s', hs', -⟩
    · cases halike
      exact ⟨_, hcost, .halt (h.sound'.surely hstrict trivial hout)⟩
    · cases hs'
  | @fail s host host' e hs =>
    have hplain : (Outcome.fails e host').Plain := hres e rfl
    rcases h.follows hprog hstrict hin hin' (hs hjunk) hplain with ⟨out, hout, halike, hcost⟩ | ⟨s', hs', -⟩
    · cases halike
      exact ⟨_, hcost, .fail (h.sound'.surely hstrict hplain hout)⟩
    · cases hs'
  | @step n s s' host host' host'' res hs _ ih =>
    rcases h.follows hprog hstrict hin hin' (hs hjunk) trivial with ⟨out, hout, halike, hcost⟩ | ⟨s'', hs', hsim⟩
    · cases halike with
      | goes hsim =>
        obtain ⟨m, hm, hends⟩ := ih hres hsim
        exact ⟨_, Nat.add_le_add hcost hm, .step (h.sound'.surely hstrict trivial hout) hends⟩
    · cases hs'
      obtain ⟨m, hm, hends⟩ := ih hres hsim
      exact ⟨m, Nat.le_trans hm (Nat.le_add_left _ _), hends⟩

end MicroC
