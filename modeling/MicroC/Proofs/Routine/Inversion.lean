import MicroC.Proofs.Routine.Step

/-!
# What a step can do

* `Op.samePlace`: an operation on data leaves the place, the routine and the callers alone.
* `State.call_goes`: a call leads into a routine of the program, or it was one of the host.
-/

namespace MicroC

open Convention

variable {σ : Type} {prog : List Subroutine} {s t : State}

theorem find?_mem {f : String} {r : Subroutine} (h : prog.find? (·.name == f) = some r) :
    r ∈ prog ∧ r.name = f :=
  ⟨List.mem_of_find?_eq_some h, by simpa using List.find?_some h⟩

/-- Two states are at the same place of one run. -/
structure State.SamePlace (s t : State) : Prop where
  routine : t.routine = s.routine
  rest : t.rest = s.rest
  callers : t.callers = s.callers

theorem Outcome.reading_goes {value : Option (Except MachineError Int64)} {host host' : σ}
    {f : Int64 → Option (Outcome σ)} (h : Outcome.reading value host f = some (.goes t host')) :
    ∃ w, value = some (.ok w) ∧ f w = some (.goes t host') := by
  unfold Outcome.reading at h
  split at h
  · cases h
  · cases h
  · next w => exact ⟨w, rfl, h⟩

/-! ## Arguments -/

theorem topValues_spec {n : Nat} {ws : List (Option Int64)} {vs : List Int64}
    (h : topValues n ws = some vs) : vs.length = n ∧ ∀ (i : Nat) v, vs[i]? = some v → ws[i]? = some (some v) := by
  induction n generalizing ws vs with
  | zero =>
    cases h
    exact ⟨rfl, fun i v hi => by simp at hi⟩
  | succ n ih =>
    cases ws with
    | nil => cases h
    | cons w ws =>
      cases w with
      | none => cases h
      | some w =>
        obtain ⟨us, hus, rfl⟩ := Option.map_eq_some_iff.1 h
        obtain ⟨hlen, hval⟩ := ih hus
        refine ⟨by rw [List.length_cons, hlen], fun i v hi => ?_⟩
        cases i with
        | zero => simpa using hi
        | succ i =>
          rw [List.getElem?_cons_succ] at hi ⊢
          exact hval i v hi

theorem length_arguments {n : Nat} {args : List Int64} (hargs : s.arguments n = some args) :
    args.length = n := by
  obtain ⟨vs, hvs, rfl⟩ := Option.map_eq_some_iff.1 hargs
  have hlen := (topValues_spec hvs).1
  rw [List.length_append, List.length_map, hlen, stackArguments, List.length_take]
  simp only [Reg.arguments, argumentRegisters, List.length_cons, List.length_nil]
  omega

/-! ## Steps -/

variable [Host σ]

theorem Op.samePlace {o : Op} (ho : o.isData = true) {junk : Junk} {host host' : σ}
    (h : o.run prog junk s host = some (.goes t host')) : s.SamePlace t ∧ host' = host := by
  cases o with
  | push src k =>
    obtain ⟨w, -, hw⟩ := Outcome.reading_goes h
    split at hw <;> cases hw
    exact ⟨⟨rfl, rfl, rfl⟩, rfl⟩
  | pop r | peek r | shrink n =>
    rw [Op.run] at h
    split at h <;> cases h
    exact ⟨⟨rfl, rfl, rfl⟩, rfl⟩
  | move src r | combine f src r | compare src r =>
    obtain ⟨w, -, hw⟩ := Outcome.reading_goes h
    cases hw
    exact ⟨⟨rfl, rfl, rfl⟩, rfl⟩
  | store r n =>
    rw [Op.run] at h
    split at h
    · cases h
    · obtain ⟨w, -, hw⟩ := Outcome.reading_goes h
      cases hw
      exact ⟨⟨rfl, rfl, rfl⟩, rfl⟩
  | negate r | extend | grow | nop =>
    cases h
    exact ⟨⟨rfl, rfl, rfl⟩, rfl⟩
  | divide r =>
    rw [Op.run] at h
    split at h
    · rw [Option.some.injEq] at h
      split at h
      · cases h
      · split at h <;> cases h
        exact ⟨⟨rfl, rfl, rfl⟩, rfl⟩
    · cases h
  | select o src r =>
    rw [Op.run] at h
    split at h
    · cases h
    · next dst x _ =>
      cases h
      cases o.holds dst x <;> exact ⟨⟨rfl, rfl, rfl⟩, rfl⟩
  | jump j l | exit | call f => cases ho

/-- Where a call leads: into a routine of the program, or just on. -/
theorem State.call_goes {f : String} {junk : Junk} {host host' : σ}
    (h : s.call prog junk f host = some (.goes t host')) :
    (∃ r, prog.find? (·.name == f) = some r ∧ s.depth + linkWords ≤ stackWords ∧ host' = host ∧
      t = entryState r ⟨some (s.routine, s.rest), s.regs, s.words⟩ s.callers s.flags) ∨
    prog.find? (·.name == f) = none ∧ ∃ i args w, Intrinsic.ofName? f = some i ∧
      s.arguments i.arity = some args ∧ i.call args host = (.ok w, host') ∧ t = s.set .rax w := by
  unfold State.call at h
  split at h
  · next r hr =>
    rw [Option.some.injEq] at h
    split at h
    · next hd =>
      cases h
      exact .inl ⟨r, hr, hd, rfl, rfl⟩
    · cases h
  · next hnone =>
    split at h
    · cases h
    · next i hi =>
      split at h
      · cases h
      · next args hargs =>
        split at h
        · next w host'' hcall =>
          cases h
          exact .inr ⟨hnone, i, args, w, hi, hargs, hcall, rfl⟩
        · cases h

end MicroC
