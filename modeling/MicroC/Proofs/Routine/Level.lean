import Mathlib.Data.List.Nodup
import MicroC.Proofs.Routine.Stretch

/-!
# How deep the stack is

At every place of a routine there is one number of words below the frame pointer, whichever way a run came
there. So the stack pointer at a place can be told from the code alone.

* `Subroutine.Level`: the number of words at a place.
* `State.Level`: a run and all its callers keep to it.
* `State.Level.next`, **`Tracks.level`**: they go on to do so.
* `Running.enters`: a run at the beginning of a stretch of code.
* **`Running.crosses`**: what a stretch of code does to the stack.
-/

namespace MicroC

open Convention Code

/-! ## Walks that keep nothing -/

section Walk

variable {keep : Nat → Prop} {ls : List (String × List Kind)} {l m n : Nat} {j k : List Item}

theorem Walk.split (h : Walk keep ls n (j ++ k) m) : ∃ l, Walk keep ls n j l ∧ Walk keep ls l k m := by
  induction j generalizing n with
  | nil => exact ⟨n, rfl, h⟩
  | cons i j ih =>
    cases i with
    | label q ks =>
      obtain ⟨l, hj, hk⟩ := ih h.2
      exact ⟨l, ⟨h.1, hj⟩, hk⟩
    | op o =>
      obtain ⟨l, hj, hk⟩ := ih h.2.2
      exact ⟨l, ⟨h.1, h.2.1, hj⟩, hk⟩

theorem Walk.unique {keep' : Nat → Prop} {ls' : List (String × List Kind)} (h : Walk keep ls n k l)
    (h' : Walk keep' ls' n k m) : l = m := by
  induction k generalizing n with
  | nil => exact (show n = l from h).symm.trans h'
  | cons i k ih =>
    cases i with
    | label q ks => exact ih h.2 h'.2
    | op o => exact ih h.2.2 h'.2.2

theorem exists_label_of_behind {q : String} (h : MicroC.behind q j = some k) : ∃ f ks, j = f ++ .label q ks :: k := by
  induction j with
  | nil => cases h
  | cons i j ih =>
    cases i with
    | op o =>
      obtain ⟨f, ks, rfl⟩ := ih h
      exact ⟨.op o :: f, ks, rfl⟩
    | label p ps =>
      rw [MicroC.behind] at h
      by_cases hq : q = p
      · rw [if_pos hq] at h
        cases h
        exact ⟨[], ps, by rw [hq]; rfl⟩
      · rw [if_neg hq] at h
        obtain ⟨f, ks, rfl⟩ := ih h
        exact ⟨.label p ps :: f, ks, rfl⟩

end Walk

/-! ## Levels -/

namespace Subroutine

/-- The number of words in front of some of the last items of a routine. -/
def Level (r : Subroutine) (k : List Item) (n : Nat) : Prop :=
  ∃ front, r.body = front ++ k ∧ Walk (fun _ => False) (labels r.body) 0 front n

/-- A routine that has a number of words at every place. -/
def Leveled (r : Subroutine) : Prop := ∃ m, Walk (fun _ => False) (labels r.body) 0 r.body m

namespace Level

variable {r : Subroutine} {j k : List Item} {m n : Nat}

theorem start (r : Subroutine) : r.Level r.body 0 := ⟨[], rfl, rfl⟩

theorem walk (h : r.Level (j ++ k) n) (hr : r.Leveled) :
    ∃ m, Walk (fun _ => False) (labels r.body) n j m ∧ r.Level k m := by
  obtain ⟨front, hbody, hfront⟩ := h
  obtain ⟨l, hall⟩ := hr
  rw [hbody] at hall
  obtain ⟨n', hn', hrest⟩ := hall.split
  obtain ⟨m, hj, -⟩ := hrest.split
  obtain rfl := hn'.unique hfront
  rw [← hbody] at hj
  exact ⟨m, hj, front ++ j, by rw [hbody, List.append_assoc], hfront.append hj⟩

theorem behind {l : String} {ks : List Kind} (hr : r.Leveled) (hn : ((labels r.body).map Prod.fst).Nodup)
    (hl : (l, ks) ∈ labels r.body) (hb : MicroC.behind l r.body = some k) : r.Level k ks.length := by
  obtain ⟨front, ls, hbody⟩ := exists_label_of_behind hb
  have hmem : (l, ls) ∈ labels r.body := by
    rw [hbody, labels_append]
    exact List.mem_append_right _ List.mem_cons_self
  cases List.inj_on_of_nodup_map hn hmem hl rfl
  obtain ⟨m, hall⟩ := hr
  rw [hbody] at hall
  obtain ⟨l, hfront, hlabel, -⟩ := hall.split
  rw [← hbody] at hfront
  refine ⟨front ++ [.label _ ks], by rw [hbody, List.append_assoc]; rfl, ?_⟩
  exact hfront.append ⟨hlabel, hlabel.symm⟩

/-- Labels take no room in memory, so there is one number of words at a place in memory. -/
theorem eq_of_width (h : r.Level j m) (h' : r.Level k n) (hw : MicroC.width j = MicroC.width k) :
    m = n := by
  have hlabels : ∀ {i f f' : List Item} {m n : Nat}, Walk (fun _ => False) (labels r.body) 0 f m →
      Walk (fun _ => False) (labels r.body) 0 f' n → f' = f ++ i → MicroC.width i = 0 → m = n := by
    rintro i f f' m n hf hf' rfl hi
    obtain ⟨l, hl, hil⟩ := hf'.split
    exact (hf.unique hl).trans (hil.eq_of_width hi)
  obtain ⟨f, hbody, hf⟩ := h
  obtain ⟨f', hbody', hf'⟩ := h'
  rcases List.append_eq_append_iff.1 (hbody.symm.trans hbody') with ⟨i, hi, hk⟩ | ⟨i, hi, hk⟩
  · refine hlabels hf hf' hi ?_
    rw [hk, width_append] at hw
    omega
  · refine (hlabels hf' hf hi ?_).symm
    rw [hk, width_append] at hw
    omega

end Level

end Subroutine

/-! ## Runs -/

section Runs

variable {σ : Type} {prog : List Subroutine} {s t : State}

/-- A run has the number of words that there are at its place, and so have its callers. -/
structure State.Level (s : State) : Prop where
  here : s.rest ≠ [] → s.routine.Level s.rest s.words.length
  callers : ∀ a ∈ s.callers, ∀ r k, a.back = some (r, k) → r.Level k a.words.length

theorem level_outermost (r : Subroutine) : (outermost r).Level :=
  ⟨fun _ => .start r, fun _ ha _ _ hb => by cases List.mem_singleton.1 ha; cases hb⟩

namespace State.Level

variable [Host σ] {junk : Junk} {host host' : σ}

/-- A step goes on from a place with the number of words that there are. -/
theorem next (h : s.Level) (hr : s.routine.Leveled) (hn : ((labels s.routine.body).map Prod.fst).Nodup)
    (hnext : s.next prog junk host = some (.goes t host')) : t.Level := by
  cases hrest : s.rest with
  | nil =>
    rw [State.next, hrest] at hnext
    dsimp only [State.leave] at hnext
    split at hnext
    · cases hnext
    · next a cs hcs =>
      have ha : a ∈ s.callers := hcs ▸ List.mem_cons_self
      split at hnext
      · cases hnext
      · next r k hb =>
        cases hnext
        exact ⟨fun _ => h.callers a ha r k hb, fun c hc => h.callers c (hcs ▸ List.mem_cons_of_mem a hc)⟩
  | cons i k =>
    have hplace := h.here (by rw [hrest]; exact List.cons_ne_nil _ _)
    rw [hrest] at hplace
    obtain ⟨m, hwalk, hk⟩ := Subroutine.Level.walk (j := [i]) hplace hr
    cases i with
    | label l ks =>
      cases next_label hrest hnext
      obtain rfl : s.words.length = m := hwalk.2
      exact ⟨fun _ => hk, h.callers⟩
    | op o =>
      obtain ⟨hstays, -, hm⟩ := hwalk
      obtain rfl : o.height s.words.length = m := hm
      rw [State.next, hrest] at hnext
      dsimp only at hnext
      cases o with
      | jump j l =>
        dsimp only [Op.run] at hnext
        split at hnext
        · cases hnext
        · cases hnext
          exact ⟨fun _ => hk, h.callers⟩
        · obtain ⟨k', hk', heq⟩ := Option.map_eq_some_iff.1 hnext
          cases heq
          obtain ⟨ks, hl, hlen⟩ := hstays
          refine ⟨fun _ => ?_, h.callers⟩
          have hlevel := Subroutine.Level.behind hr hn hl hk'
          rwa [hlen] at hlevel
      | exit =>
        cases hnext
        exact ⟨fun hne => absurd rfl hne, h.callers⟩
      | call f =>
        dsimp only [Op.run] at hnext
        split at hnext
        · rcases State.call_goes hnext with ⟨r, -, -, -, rfl⟩ | ⟨-, i, args, w, -, -, -, rfl⟩
          · refine ⟨fun _ => .start r, fun a ha => ?_⟩
            rcases List.mem_cons.1 ha with rfl | ha
            · rintro r' k' ⟨⟩
              exact hk
            · exact h.callers a ha
          · exact ⟨fun _ => hk, h.callers⟩
        · cases hnext
      | _ =>
        obtain ⟨hplace, -⟩ := Op.samePlace rfl hnext
        obtain ⟨hlen, -⟩ := Op.run_words rfl hnext
        refine ⟨fun _ => ?_, fun a ha => h.callers a (hplace.callers ▸ ha)⟩
        rw [hplace.routine, hplace.rest, hlen]
        exact hk

end State.Level

variable [Host σ] {code : Code} {mode : Mode} {x y : Point σ} {n : Nat}

/-- **A run that has the number of words of its place goes on to do so.** -/
theorem Tracks.level (h : Tracks code prog mode n s x t y) (hin : InOrder prog mode)
    (hprog : ∀ r ∈ prog, r.Leveled) (hs : s.Level) : t.Level := by
  induction h with
  | refl _ => exact hs
  | step h hnext _ _ ih =>
    have hr := h.located.routine
    exact ih (hs.next (hprog _ hr) (hin.labels _ hr) hnext)

omit [Host σ] in
/-- At the place of some items a run has the number of words in front of them. -/
theorem Running.length_at (himp : code.Implements prog) (hs : Running prog mode s x) (hl : s.Level)
    {r : Subroutine} (hr : r ∈ prog) {k : List Item} (hk : k <:+ r.body) (hpos : 0 < width k)
    (hpc : x.pc = pcOf prog r k) {d : Nat} (hd : r.Level k d) : s.words.length = d := by
  obtain ⟨rfl, hwidth⟩ := pcOf_inj himp.names hs.located.routine hr hs.located.rest hk
    (hs.represents.pc.symm.trans hpc)
  refine (hl.here fun hrest => ?_).eq_of_width hd hwidth
  rw [hrest, width_nil] at hwidth
  omega

/-- Two places in front of operations are the same if they are so in memory. -/
theorem eq_of_width_of_suffix {o o' : Op} {b j k : List Item} (h : .op o :: j <:+ b) (h' : .op o' :: k <:+ b)
    (hw : width (.op o :: j) = width (.op o' :: k)) : Item.op o :: j = .op o' :: k := by
  have hsame : ∀ {o o' : Op} {j k : List Item}, Item.op o :: j <:+ .op o' :: k →
      width (.op o :: j) = width (.op o' :: k) → Item.op o :: j = .op o' :: k := by
    rintro o o' j k ⟨l, hl⟩ hw
    cases l with
    | nil => exact hl
    | cons i l =>
      rw [List.cons_append, List.cons.injEq] at hl
      rw [← hl.2, width_op, width_op, width_append, width_op] at hw
      omega
  rcases List.suffix_or_suffix_of_suffix h h' with hs | hs
  · exact hsame hs hw
  · exact (hsame hs hw.symm).symm

/-- At the place of an operation a run has come to it, but for labels. -/
theorem Running.at_op (himp : code.Implements prog) (hin : InOrder prog mode) (hs : Running prog mode s x)
    {r : Subroutine} (hr : r ∈ prog) {o : Op} {k : List Item} (hk : .op o :: k <:+ r.body)
    (hpc : x.pc = pcOf prog r (.op o :: k)) :
    s.routine = r ∧ Running prog mode { s with rest := .op o :: k } x := by
  obtain ⟨j, hj, hform⟩ := hs.pass_labels hin
  obtain ⟨hroutine, hwidth⟩ := pcOf_inj himp.names hj.located.routine hr hj.located.rest hk
    (hj.represents.pc.symm.trans hpc)
  rcases hform with rfl | ⟨o', k', rfl⟩
  · rw [width_nil, width_op] at hwidth
    omega
  · have hsame := eq_of_width_of_suffix (b := r.body) (hroutine ▸ hj.located.rest) hk hwidth
    exact ⟨hroutine, hsame ▸ hj⟩

/-- A stretch of code in the activation of a state, with the words that the state has. -/
def State.stretch (s : State) {r : Subroutine} {front items back : List Item}
    (hbody : r.body = front ++ (items ++ back)) {keep : Nat → Prop} {d d' : Nat}
    (hwalk : Walk keep (labels items) d items d') : Stretch where
  routine := r
  front := front
  items := items
  back := back
  body := hbody
  keep := keep
  before := d
  behind := d'
  walk := hwalk
  callers := s.callers
  value i := (under s.words i).getD none

theorem State.under_eq_value (s : State) {r : Subroutine} {front items back : List Item}
    (hbody : r.body = front ++ (items ++ back)) {keep : Nat → Prop} {d d' : Nat}
    (hwalk : Walk keep (labels items) d items d') {i : Nat} (hi : i < s.words.length) :
    under s.words i = some ((s.stretch hbody hwalk).value i) := by
  show under s.words i = some ((under s.words i).getD none)
  cases hu : under s.words i with
  | none => exact absurd hi (Nat.not_lt.2 (under_eq_none.1 hu))
  | some v => rfl

theorem Running.enters (himp : code.Implements prog) (hin : InOrder prog mode) (hs : Running prog mode s x)
    {r : Subroutine} (hr : r ∈ prog) {front items back : List Item} (hbody : r.body = front ++ (items ++ back))
    (hitems : 0 < width items) {keep : Nat → Prop} {d d' : Nat} (hwalk : Walk keep (labels items) d items d')
    (hkeep : ∀ i, keep i → i < d) (hpc : x.pc = pcOf prog r (items ++ back)) (hlen : s.words.length = d) :
    ∃ k, Running prog mode { s with rest := k } x ∧ (s.stretch hbody hwalk).Holds { s with rest := k } := by
  obtain ⟨o, j, ⟨f, hj⟩, hjwidth, hjwalk⟩ := hwalk.skip_labels hitems
  have hsuffix : .op o :: (j ++ back) <:+ r.body := ⟨front ++ f, by rw [hbody, ← hj]; simp⟩
  have hwidth : width (.op o :: (j ++ back)) = width (items ++ back) := by
    rw [← List.cons_append, width_append, width_append, hjwidth]
  obtain ⟨hroutine, hk⟩ := hs.at_op himp hin hr hsuffix (by rw [hpc, pcOf, pcOf, hwidth])
  refine ⟨_, hk, .inside hroutine rfl rfl ⟨(show s.words.length = d from hlen) ▸ hjwalk, fun i hi => ?_⟩⟩
  exact s.under_eq_value hbody hwalk (hlen ▸ hkeep i hi)

/-- **What a stretch of code does to the stack** of the activation that enters it: it keeps the words that no
operation of it stores to or takes off the stack. -/
theorem Running.crosses (himp : code.Implements prog) (hin : InOrder prog mode) (hs : Running prog mode s x)
    {r : Subroutine} (hr : r ∈ prog) {front items back : List Item} (hbody : r.body = front ++ (items ++ back))
    (hback : 0 < width back) {keep : Nat → Prop} {d d' : Nat} (hwalk : Walk keep (labels items) d items d')
    (hkeep : ∀ i, keep i → i < d) (hpc : x.pc = pcOf prog r (items ++ back)) (hlen : s.words.length = d)
    {z : Point σ} (hz : code.Traverses (pcOf prog r back) x z) :
    ∃ t, Running prog mode t z ∧ t.callers = s.callers ∧ t.words.length = d' ∧
      ∀ i, keep i → under t.words i = under s.words i := by
  by_cases hitems : width items = 0
  · -- The end is where the run already is.
    have hstop : x.pc = pcOf prog r back := by
      simpa only [pcOf, width_append, hitems, Nat.zero_add] using hpc
    obtain ⟨n, hruns, hfirst⟩ := hz.runs
    cases n with
    | zero =>
      cases hruns
      exact ⟨s, hs, rfl, hlen.trans (hwalk.eq_of_width hitems), fun _ _ => rfl⟩
    | succ n => exact absurd hstop ((hfirst 0 n.succ_pos x (.refl x)).2 rfl)
  · obtain ⟨k, hk, hentered⟩ := hs.enters himp hin hr hbody (Nat.pos_of_ne_zero hitems) hwalk hkeep hpc hlen
    obtain ⟨t, ht, hended⟩ := Stretch.traverses himp hin hr hback hk hentered hs.length_returns hz
    refine ⟨t, ht, hended.callers, hended.length, fun i hi => ?_⟩
    exact (hended.kept i hi).trans (s.under_eq_value hbody hwalk (hlen ▸ hkeep i hi)).symm

end Runs

end MicroC
