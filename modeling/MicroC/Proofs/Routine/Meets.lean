import MicroC.Proofs.Routine.Steady
import MicroC.Proofs.Semantics.Evaluation

/-!
# Evaluations on the machine

What the steps of a routine have to do with an evaluation: they come to the same value, fail with the same error
or go on for as long as the evaluation does, unless the stack runs over, and it only does so under the frames of the
calls that the evaluation makes.

* `State.frames`, `Spills`: the stack runs over under so many frames.
* `Reaches`: a state with a property is reached, unless the stack runs over.
* `Meets`: the steps meet the result of an evaluation. **`Meets.bind`**: one evaluation after the other.
* `State.At`: where a routine is.
* `reaches_push`, `reaches_pop`, ...: the operations.
-/

namespace MicroC

open Convention

section Chains

variable {σ : Type} [Host σ] {prog : List Subroutine} {most : Nat} {s t : State} {host host' : σ} {n : Nat}

/-! ## Where the stack runs over -/

/-- The frames on the stack, with the one that a call sets up. -/
def State.frames (s : State) : Nat :=
  match s.rest with
  | .op (.call _) :: _ => s.callers.length + 1
  | _ => s.callers.length

/-- At the end of some steps the stack runs over, with at most so many frames on it. -/
def Spills (prog : List Subroutine) (most : Nat) (s : State) (host : σ) : Prop :=
  ∃ n t host', Leads prog n s host t host' ∧ t.Overflows prog ∧ t.frames ≤ most

theorem Spills.lead (hl : Leads prog n s host t host') (h : Spills prog most t host') : Spills prog most s host := by
  obtain ⟨m, u, host'', hm, hu⟩ := h
  exact ⟨n + m, u, host'', hl.trans hm, hu⟩

/-- Where the stack runs over the machine stops with an error that says so. -/
theorem Spills.halts {code : Code} {mode : Mode} (h : Spills prog most s host) (himp : code.Implements prog)
    (hin : InOrder prog mode) : ∃ limit, ∀ p : Point σ, Running prog mode s p → p.host = host →
      ∃ k e cpu host', k ≤ limit ∧ code.Halts k p ⟨.error e, cpu, host'⟩ ∧ e.ofStack = true := by
  obtain ⟨n, t, host₁, hl, hover, -⟩ := h
  refine ⟨n + t.cost prog, fun p hp hhost => ?_⟩
  obtain ⟨q, hq, ht, rfl⟩ := hl.runs himp hin hp hhost
  obtain ⟨junk, hdoes⟩ := ht.does himp
  obtain ⟨m, cpu, hm, hhalts⟩ := hdoes _ (hover.next junk q.host)
  exact ⟨n + m, _, cpu, q.host, Nat.add_le_add_left hm n, hq.halts hhalts, t.overflow_ofStack junk⟩

/-- A state with a property is reached, unless the stack runs over. -/
def Reaches (prog : List Subroutine) (most : Nat) (s : State) (host : σ) (T : State → Prop) : Prop :=
  Spills prog most s host ∨ ∃ n t, Leads prog n s host t host ∧ T t

namespace Reaches

variable {T T' : State → Prop}

theorem here (h : T s) : Reaches prog most s host T := .inr ⟨0, s, .refl s host, h⟩

theorem step (h : s.Surely prog host (.goes t host)) (ht : Reaches prog most t host T) :
    Reaches prog most s host T := by
  rcases ht with hover | ⟨n, u, hl, hu⟩
  · exact .inl (hover.lead (.one h))
  · exact .inr ⟨_, u, .step h hl, hu⟩

theorem trans (h : Reaches prog most s host T) (h' : ∀ t, T t → Reaches prog most t host T') :
    Reaches prog most s host T' := by
  rcases h with hover | ⟨n, t, hl, ht⟩
  · exact .inl hover
  · rcases h' t ht with hover | ⟨m, u, hm, hu⟩
    · exact .inl (hover.lead hl)
    · exact .inr ⟨n + m, u, hl.trans hm, hu⟩

end Reaches

/-! ## Results -/

variable {α β : Type} {fuel fuel' : Nat} {T : α → State → Prop} {T' : β → State → Prop}
  {res : EStateM.Result Stop σ α}

/-- The steps meet the result of an evaluation: they come to a state that goes with its value, or fail with its
error, or are at least as many as its bound, if it has stopped there. -/
inductive Meets (prog : List Subroutine) (most fuel : Nat) (T : α → State → Prop) (s : State) (host : σ) :
    EStateM.Result Stop σ α → Prop
  | spills {res : EStateM.Result Stop σ α} (h : Spills prog most s host) : Meets prog most fuel T s host res
  | ok {n : Nat} {v : α} {t : State} {host' : σ} (hl : Leads prog n s host t host') (ht : T v t) :
      Meets prog most fuel T s host (.ok v host')
  | fails {n : Nat} {e : MachineError} {host' : σ} (hf : Finishes prog n s host (.error e) host') :
      Meets prog most fuel T s host (.error (.failure e) host')
  | unfinished {n : Nat} {t : State} {host' host'' : σ} (hn : fuel ≤ n) (hl : Leads prog n s host t host') :
      Meets prog most fuel T s host (.error .unfinished host'')

namespace Meets

theorem lead (hl : Leads prog n s host t host') (h : Meets prog most fuel T t host' res) :
    Meets prog most (n + fuel) T s host res := by
  cases h with
  | spills h => exact .spills (h.lead hl)
  | ok hl' ht => exact .ok (hl.trans hl') ht
  | fails hf => exact .fails (hl.ends hf)
  | unfinished hn hl' => exact .unfinished (Nat.add_le_add_left hn n) (hl.trans hl')

theorem mono {S : α → State → Prop} (h : Meets prog most fuel T s host res) (hfuel : fuel' ≤ fuel)
    (hT : ∀ v t, T v t → S v t) : Meets prog most fuel' S s host res := by
  cases h with
  | spills h => exact .spills h
  | ok hl ht => exact .ok hl (hT _ _ ht)
  | fails hf => exact .fails hf
  | unfinished hn hl => exact .unfinished (Nat.le_trans hfuel hn) hl

theorem reaches {S : α → State → Prop} (h : Meets prog most fuel T s host res)
    (h' : ∀ v t (host' : σ), T v t → Reaches prog most t host' (S v)) : Meets prog most fuel S s host res := by
  cases h with
  | spills h => exact .spills h
  | ok hl ht =>
    rcases h' _ _ _ ht with hover | ⟨m, u, hm, hu⟩
    · exact .spills (hover.lead hl)
    · exact .ok (hl.trans hm) hu
  | fails hf => exact .fails hf
  | unfinished hn hl => exact .unfinished hn hl

theorem pure {v : α} (h : T v s) : Meets prog most fuel T s host ((Pure.pure v : Eval σ α) host) := .ok (.refl s host) h

/-- **One evaluation after the other.** -/
theorem bind {x : Eval σ α} {f : α → Eval σ β} (hx : Meets prog most fuel T s host (x host))
    (hf : ∀ v t host', T v t → Meets prog most fuel T' t host' (f v host')) :
    Meets prog most fuel T' s host ((x >>= f) host) := by
  change Meets prog most fuel T' s host (EStateM.bind x f host)
  unfold EStateM.bind
  generalize x host = res at hx
  cases hx with
  | spills h => exact .spills h
  | ok hl ht => exact (lead hl (hf _ _ _ ht)).mono (Nat.le_add_left _ _) fun _ _ h => h
  | fails hl => exact .fails hl
  | unfinished hn hl => exact .unfinished hn hl

end Meets

theorem Reaches.meets {S : State → Prop} (h : Reaches prog most s host S)
    (h' : ∀ t, S t → Meets prog most fuel T t host res) : Meets prog most fuel T s host res := by
  rcases h with hover | ⟨n, t, hl, ht⟩
  · exact .spills hover
  · exact (Meets.lead hl (h' t ht)).mono (Nat.le_add_left _ _) fun _ _ h => h

end Chains

/-! ## Operations -/

/-- Where a routine is, and what words it has. -/
structure State.At (s : State) (r : Subroutine) (cs : List Caller) (k : List Item) (ws : List (Option Int64)) :
    Prop where
  routine : s.routine = r
  callers : s.callers = cs
  rest : s.rest = k
  words : s.words = ws

section Operations

variable {σ : Type} [Host σ] {prog : List Subroutine} {most : Nat} {s t : State} {host : σ} {T : State → Prop}
  {k : List Item} {ws : List (Option Int64)} {w : Int64} {r : Reg}

theorem Src.read_rest (src : Src) (junk : Junk) (s : State) (k : List Item) :
    src.read junk { s with rest := k } = src.read junk s := by
  cases src <;> rfl

theorem Reaches.op {o : Op} (hrest : s.rest = .op o :: k)
    (hrun : ∀ junk, o.run prog junk { s with rest := k } host = some (.goes t host))
    (h : Reaches prog most t host T) : Reaches prog most s host T := by
  refine .step (fun junk => ?_) h
  rw [State.next, hrest]
  exact hrun junk

theorem reaches_label {l : String} {ks : List Kind} (hrest : s.rest = .label l ks :: k)
    (h : Reaches prog most { s with rest := k } host T) : Reaches prog most s host T :=
  .step (fun _ => by rw [State.next, hrest]) h

theorem reaches_push {src : Src} {κ : Kind} {cs : List Caller} (hcallers : s.callers = cs) (hcs : cs.length ≤ most)
    (hrest : s.rest = .op (.push src κ) :: k) (hread : ∀ junk, src.read junk s = some (.ok w))
    (h : Reaches prog most { s with rest := k, words := some w :: s.words } host T) : Reaches prog most s host T := by
  have hrun : ∀ junk, s.next prog junk host = some (if s.depth < stackWords then
      .goes { s with rest := k, words := some w :: s.words } host else .fails (s.overflow junk) host) := by
    intro junk
    rw [State.next, hrest]
    dsimp only [Op.run]
    rw [src.read_rest, hread junk]
    rfl
  by_cases hroom : s.depth < stackWords
  · exact .step (fun junk => by rw [hrun, if_pos hroom]) h
  · have hover : s.Overflows prog :=
      .push hrest (fun junk => by rw [src.read_rest, hread]) (Nat.le_of_not_lt hroom)
    have hframes : s.frames = cs.length := by rw [State.frames, hrest, ← hcallers]
    exact .inl ⟨0, s, host, .refl s host, hover, hframes ▸ hcs⟩

theorem reaches_pop (hrest : s.rest = .op (.pop r) :: k) (hwords : s.words = some w :: ws)
    (h : Reaches prog most ({ s with rest := k, words := ws }.set r w) host T) : Reaches prog most s host T :=
  .op hrest (fun _ => by rw [Op.run]; dsimp only; rw [hwords]) h

theorem reaches_peek (hrest : s.rest = .op (.peek r) :: k) (hwords : s.words = some w :: ws)
    (h : Reaches prog most ({ s with rest := k }.set r w) host T) : Reaches prog most s host T :=
  .op hrest (fun _ => by rw [Op.run]; dsimp only; rw [hwords]) h

theorem reaches_move {src : Src} (hrest : s.rest = .op (.move src r) :: k)
    (hread : ∀ junk, src.read junk s = some (.ok w))
    (h : Reaches prog most ({ s with rest := k }.set r w) host T) : Reaches prog most s host T :=
  .op hrest (fun junk => by rw [Op.run, src.read_rest, hread junk]; rfl) h

theorem reaches_combine {f : Arith} {src : Src} (hrest : s.rest = .op (.combine f src r) :: k)
    (hread : ∀ junk, src.read junk s = some (.ok w))
    (h : Reaches prog most ({ s with rest := k }.set r (f.apply (s.regs r) w)) host T) : Reaches prog most s host T :=
  .op hrest (fun junk => by rw [Op.run, src.read_rest, hread junk]; rfl) h

theorem reaches_compare {src : Src} (hrest : s.rest = .op (.compare src r) :: k)
    (hread : ∀ junk, src.read junk s = some (.ok w))
    (h : Reaches prog most { s with rest := k, flags := some (s.regs r, w) } host T) : Reaches prog most s host T :=
  .op hrest (fun junk => by rw [Op.run, src.read_rest, hread junk]; rfl) h

theorem reaches_select {o : Order} {q : Reg} {v : Int64} (hrest : s.rest = .op (.select o q r) :: k)
    (hflags : s.flags = some (v, w))
    (h : Reaches prog most ({ s with rest := k }.set r (if o.holds v w then s.regs q else s.regs r)) host T) :
    Reaches prog most s host T := by
  refine .op hrest (fun _ => ?_) h
  rw [Op.run]
  dsimp only
  rw [hflags]
  dsimp only
  cases o.holds v w with
  | true => rfl
  | false =>
    have hsame : ∀ p, (if p = r then s.regs r else s.regs p) = s.regs p := by
      intro p
      split
      · next h => rw [h]
      · rfl
    simp only [State.set, hsame, Bool.false_eq_true, if_false]

theorem reaches_store {n : Nat} {v : Int64} (hrest : s.rest = .op (.store r n) :: k)
    (hwords : under s.words n = some (some v))
    (h : Reaches prog most { s with rest := k, words := setUnder s.words n (some (s.regs r)) } host T) :
    Reaches prog most s host T :=
  .op hrest (fun junk => by rw [Op.run]; dsimp only; rw [hwords]; rfl) h

theorem reaches_shrink {n : Nat} (hrest : s.rest = .op (.shrink n) :: k) (hn : n < s.words.length)
    (h : Reaches prog most { s with rest := k, words := s.words.drop (n + 1) } host T) : Reaches prog most s host T :=
  .op hrest (fun _ => by rw [Op.run, if_pos hn]) h

theorem reaches_pass {j : Jump} {l : String} (hrest : s.rest = .op (.jump j l) :: k)
    (hj : j.taken? s.flags = some false) (h : Reaches prog most { s with rest := k } host T) :
    Reaches prog most s host T :=
  .op hrest (fun _ => by rw [Op.run]; dsimp only; rw [hj]) h

theorem reaches_jump {j : Jump} {l : String} {k' : List Item} (hrest : s.rest = .op (.jump j l) :: k)
    (hj : j.taken? s.flags = some true) (hl : behind l s.routine.body = some k')
    (h : Reaches prog most { s with rest := k' } host T) : Reaches prog most s host T :=
  .op hrest (fun _ => by rw [Op.run]; dsimp only; rw [hj, hl]; rfl) h

/-- Where the code behind a label stands in the routine, a jump to the label leads there. -/
theorem behind_of_suffix {l : String} {ks : List Kind} {body : List Item}
    (hn : ((labels body).map Prod.fst).Nodup) (h : .label l ks :: k <:+ body) : behind l body = some k := by
  obtain ⟨front, rfl⟩ := h
  induction front with
  | nil => exact if_pos rfl
  | cons i front ih =>
    cases i with
    | op o => exact ih hn
    | label m ms =>
      rw [List.cons_append, labels, List.map_cons, List.nodup_cons, labels_append, List.map_append] at hn
      have hne : l ≠ m := by
        rintro rfl
        exact hn.1 (List.mem_append_right _ List.mem_cons_self)
      rw [List.cons_append, behind, if_neg hne]
      refine ih ?_
      rw [labels_append, List.map_append]
      exact hn.2

end Operations

end MicroC
