import MicroC.Proofs.Routine.Run

/-!
# Routines whose variables all have values

If every variable has a value, the steps of a routine depend on nothing but its state. Only where the
stack runs over may they come to different errors.

* `MachineError.ofStack`: errors that depend on how deep the stack is.
* `Sound.surely`: other steps are sure.
* **`ends_of_halts`**: a run on the machine is a chain of steps.
-/

namespace MicroC

open Convention Code

/-- Errors that depend on how deep the stack is. -/
def MachineError.ofStack : MachineError → Bool
  | .stackOverflow | .invalidAddress _ => true
  | _ => false

variable {σ : Type} {prog : List Subroutine} {mode : Mode} {sh th : Shape} {s t : State}

theorem State.overflow_ofStack (junk : Junk) (s : State) : (s.overflow junk).ofStack = true := by
  unfold State.overflow
  split
  · rfl
  · split <;> rfl

/-- What a source reads does not change from one time to the next. -/
theorem Src.read_steady {src : Src} (hstrict : mode.strict = true) (hs : Shaped sh s)
    (ha : Awaits prog mode s.routine.arity s.callers)
    (hok : src.ok (setting prog mode s.routine) sh = true) : ∃ x, ∀ junk, src.read junk s = some x := by
  cases src with
  | imm w => exact ⟨_, fun _ => rfl⟩
  | reg r => exact ⟨_, fun _ => rfl⟩
  | slot n =>
    simp only [Src.ok, Src.isVariable] at hok
    split at hok
    · next hk =>
      obtain ⟨w, hw, hsome⟩ := hs.words.under hk
      obtain ⟨v, rfl⟩ := Option.isSome_iff_exists.1 (hsome (by decide))
      refine ⟨.ok v, fun junk => ?_⟩
      rw [Src.read, hw]
      rfl
    · simp [setting, hstrict] at hok
    · cases hok
  | param n =>
    have hn : argumentRegisters.length + n < s.routine.arity := of_decide_eq_true hok
    simp only [Src.read]
    cases hc : s.callers with
    | nil =>
      rw [hc] at ha
      cases ha
    | cons a cs =>
      rw [hc] at ha
      simp only [if_pos hn]
      generalize hm : s.routine.arity = m at ha hn
      cases ha with
      | outermost hg regs => exact ⟨_, fun _ => rfl⟩
      | @call _ r k regs ks ws cs hr hk hw hl htemp hd h =>
        obtain ⟨vs, hvs⟩ := hw.topValues htemp
        obtain ⟨hlen, hval⟩ := topValues_spec hvs
        have hlt : n < vs.length := by
          rw [hlen, stackArguments]
          omega
        have := hval n _ (List.getElem?_eq_getElem hlt)
        refine ⟨.ok vs[n], fun junk => ?_⟩
        rw [this]
        rfl

/-- Where a source cannot be read there is no memory. -/
theorem Src.ofStack_of_read {src : Src} {junk : Junk} {e : MachineError}
    (h : src.read junk s = some (.error e)) : e.ofStack = true := by
  have hword : ∀ w, wordValue junk w = .error e → e.ofStack = true := by
    intro w hw
    unfold wordValue at hw
    split at hw
    · cases hw
    · cases hj : junk.word with
      | ok v =>
        rw [hj] at hw
        cases hw
      | error a =>
        rw [hj] at hw
        cases hw
        rfl
  cases src with
  | imm w => cases h
  | reg r => cases h
  | slot n =>
    obtain ⟨w, -, hw⟩ := Option.map_eq_some_iff.1 h
    exact hword w hw
  | param n =>
    rw [Src.read] at h
    split at h
    · cases h
    · split at h
      · split at h
        · exact hword _ (Option.some.inj h)
        · split at h
          · cases h
            rfl
          · cases h
      · cases h

/-- An outcome that does not tell how deep the stack is. -/
def Outcome.Plain : Outcome σ → Prop
  | .fails e _ => e.ofStack = false
  | _ => True

variable [Host σ]

/-- The stack runs over in the next step: it has no room for a word, or for a frame. -/
inductive State.Overflows (prog : List Subroutine) (s : State) : Prop
  | push {src : Src} {κ : Kind} {k : List Item} {w : Int64} (hrest : s.rest = .op (.push src κ) :: k)
      (hread : ∀ junk, src.read junk { s with rest := k } = some (.ok w)) (hfull : stackWords ≤ s.depth)
  | call {f : String} {k : List Item} {r : Subroutine} (hrest : s.rest = .op (.call f) :: k)
      (hf : prog.find? (·.name == f) = some r) (heven : s.words.length % 2 = 0)
      (hfull : stackWords < s.depth + linkWords)

/-- The step then fails. -/
theorem State.Overflows.next (h : s.Overflows prog) (junk : Junk) (host : σ) :
    s.next prog junk host = some (.fails (s.overflow junk) host) := by
  cases h with
  | @push src κ k w hrest hread hfull =>
    rw [State.next, hrest]
    dsimp only [Op.run]
    rw [hread junk]
    exact congrArg some (if_neg (Nat.not_lt.2 hfull))
  | call hrest hf heven hfull =>
    rw [State.next, hrest]
    dsimp only [Op.run]
    rw [if_pos heven, State.call, hf]
    exact congrArg some (if_neg (Nat.not_le.2 hfull))

/-- What comes of an operation is sure, unless it is a push on a full stack. -/
theorem Op.run_steady {o : Op} (ho : o.isData = true) (hstrict : mode.strict = true)
    (heff : o.effect (setting prog mode s.routine) sh = some th) (hs : Shaped sh s)
    (ha : Awaits prog mode s.routine.arity s.callers) {junk : Junk} {host : σ} {out : Outcome σ}
    (h : o.run prog junk s host = some out) :
    (∀ junk', o.run prog junk' s host = some out) ∨
      ∃ src κ w, o = .push src κ ∧ (∀ junk', src.read junk' s = some (.ok w)) ∧ stackWords ≤ s.depth ∧
        out = .fails (s.overflow junk) host := by
  have hread : ∀ src : Src, src.ok (setting prog mode s.routine) sh = true →
      ∀ junk', src.read junk' s = src.read junk s := by
    intro src hok junk'
    obtain ⟨x, hx⟩ := Src.read_steady hstrict hs ha hok
    rw [hx junk, hx junk']
  cases o with
  | push src k =>
    have heq := hread src (Op.effect_push.1 heff).1
    by_cases hfull : stackWords ≤ s.depth ∧ ∃ w, src.read junk s = some (.ok w)
    · obtain ⟨hfull, w, hw⟩ := hfull
      refine .inr ⟨src, k, w, rfl, fun junk' => (heq junk').trans hw, hfull, ?_⟩
      rw [Op.run, hw, Outcome.reading, if_neg (Nat.not_lt.2 hfull)] at h
      exact (Option.some.inj h).symm
    · refine .inl fun junk' => ?_
      rw [Op.run, heq junk']
      rw [Op.run] at h
      generalize hx : src.read junk s = x at h hfull
      rcases x with _ | e | w
      · exact h
      · exact h
      · have hroom : s.depth < stackWords := Nat.lt_of_not_le fun hle => hfull ⟨hle, w, rfl⟩
        rw [Outcome.reading, if_pos hroom] at h ⊢
        exact h
  | move src r =>
    refine .inl fun junk' => ?_
    rw [Op.run, hread src (Op.effect_move.1 heff).1]
    exact h
  | store r n =>
    refine .inl fun junk' => ?_
    have heq := hread (.slot n) (Op.effect_store.1 heff).2.1 junk'
    rw [Op.run] at h ⊢
    cases hw : under s.words n with
    | none =>
      rw [hw] at h
      exact h
    | some w =>
      rw [Src.read, Src.read, hw] at heq
      rw [hw] at h
      dsimp only at h ⊢
      rw [Option.map_some, Option.map_some] at heq
      rw [heq]
      exact h
  | combine f src r =>
    refine .inl fun junk' => ?_
    rw [Op.run, hread src (Op.effect_combine.1 heff).1]
    exact h
  | compare src r =>
    refine .inl fun junk' => ?_
    rw [Op.run, hread src (Op.effect_compare.1 heff).1]
    exact h
  | jump j l => cases ho
  | exit => cases ho
  | call f => cases ho
  | _ => exact .inl fun _ => h

/-- What comes of a call is sure, unless there is no room for the frame of a routine. -/
theorem State.call_steady {f : String} {junk : Junk} {host : σ} {out : Outcome σ}
    (h : s.call prog junk f host = some out) :
    (∀ junk', s.call prog junk' f host = some out) ∨
      ∃ r, prog.find? (·.name == f) = some r ∧ stackWords < s.depth + linkWords ∧
        out = .fails (s.overflow junk) host := by
  cases hfind : prog.find? (·.name == f) with
  | none =>
    refine .inl fun junk' => ?_
    rw [State.call, hfind] at h ⊢
    exact h
  | some r =>
    rw [State.call, hfind] at h
    dsimp only at h
    by_cases hroom : s.depth + linkWords ≤ stackWords
    · refine .inl fun junk' => ?_
      rw [State.call, hfind]
      dsimp only
      rw [if_pos hroom] at h ⊢
      exact h
    · rw [if_neg hroom] at h
      exact .inr ⟨r, rfl, Nat.lt_of_not_le hroom, (Option.some.inj h).symm⟩

/-- **Steps are sure where every variable has a value**, unless the stack runs over. -/
theorem Sound.surely_or_overflows (hstrict : mode.strict = true) (h : Sound prog mode s) {junk : Junk} {host : σ}
    {out : Outcome σ} (hnext : s.next prog junk host = some out) :
    s.Surely prog host out ∨ s.Overflows prog ∧ out = .fails (s.overflow junk) host := by
  obtain ⟨sh, hcheck, hs, -⟩ := h.shape
  unfold State.next at hnext
  unfold State.Surely State.next
  cases hrest : s.rest with
  | nil =>
    rw [hrest] at hnext
    exact .inl fun _ => hnext
  | cons i k =>
    rw [hrest] at hnext hcheck
    cases i with
    | label l ks => exact .inl fun _ => hnext
    | op o =>
      obtain ⟨th, heff, -⟩ := hcheck
      cases o with
      | jump j l => exact .inl fun _ => hnext
      | exit => exact .inl fun _ => hnext
      | call f =>
        dsimp only [Op.run] at hnext ⊢
        split at hnext
        · next heven =>
          simp only [if_pos heven]
          refine (State.call_steady hnext).imp_right ?_
          rintro ⟨r, hf, hfull, rfl⟩
          exact ⟨.call hrest hf heven hfull, rfl⟩
        · cases hnext
      | _ =>
        refine (Op.run_steady (s := { s with rest := k }) rfl hstrict heff (hs.at_rest k) h.callers hnext).imp_right ?_
        rintro ⟨src, κ, w, ho, hread, hfull, rfl⟩
        exact ⟨.push (hrest.trans (by rw [ho])) hread hfull, rfl⟩

/-- Steps that do not tell how deep the stack is are sure. -/
theorem Sound.surely (hstrict : mode.strict = true) (h : Sound prog mode s) {junk : Junk} {host : σ}
    {out : Outcome σ} (hout : out.Plain) (hnext : s.next prog junk host = some out) :
    s.Surely prog host out := by
  refine (h.surely_or_overflows hstrict hnext).resolve_right ?_
  rintro ⟨-, rfl⟩
  rw [Outcome.Plain, State.overflow_ofStack] at hout
  cases hout

/-- Only operations of one instruction fail for other reasons than the depth of the stack. -/
theorem cost_of_fails {junk : Junk} {host host' : σ} {e : MachineError}
    (h : s.next prog junk host = some (.fails e host')) :
    s.cost prog = 1 ∨ s.Overflows prog ∧ e = s.overflow junk := by
  unfold State.next at h
  unfold State.cost
  split at h
  · unfold State.leave at h
    split at h
    · cases h
    · split at h <;> cases h
  · cases h
  · next o k hrest =>
    rw [hrest]
    cases o with
    | call f =>
      dsimp only [Op.run] at h ⊢
      split at h
      · next heven =>
        unfold State.call at h
        cases hfind : prog.find? (·.name == f) with
        | none => exact .inl rfl
        | some r =>
          rw [hfind] at h
          dsimp only at h
          split at h
          · cases h
          · next hfull =>
            cases h
            exact .inr ⟨.call hrest hfind heven (Nat.lt_of_not_le hfull), rfl⟩
      · cases h
    | _ => exact .inl rfl

/-- **A run on the machine is a chain of steps**, unless the stack runs over. -/
theorem ends_of_halts {code : Code} {p : Point σ} {f : Halt σ} {n : Nat} (himp : code.Implements prog)
    (hin : InOrder prog mode) (hstrict : mode.strict = true) (h : Running prog mode s p)
    (hf : code.Halts n p f) (he : ∀ e, f.result = .error e → e.ofStack = false) :
    Finishes prog n s p.host f.result f.host := by
  refine h.halts_induction (motive := fun n s p => Finishes prog n s p.host f.result f.host) himp hin ?_ ?_ ?_ hf
  · intro s p junk w h hw hnext
    rw [hw]
    exact .halt (h.sound.surely hstrict trivial hnext)
  · intro n s p junk e h hres hpos hle hnext
    have hplain := he e hres
    have hcost : s.cost prog = 1 := by
      refine (cost_of_fails hnext).resolve_right ?_
      rintro ⟨-, rfl⟩
      rw [State.overflow_ofStack] at hplain
      cases hplain
    rw [hres, show n = s.cost prog by omega]
    exact .fail (h.sound.surely hstrict hplain hnext)
  · intro n s p t q junk h _ hnext ih
    exact .step (h.sound.surely hstrict trivial hnext) ih

end MicroC
