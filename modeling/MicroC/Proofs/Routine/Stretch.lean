import MicroC.Proofs.Routine.Activation

/-!
# Stretches of code

A stretch of the code of a routine jumps only to labels of its own. So a run that enters it is in it, in a
call that was made from it, or on its way out of the routine, until it reaches the end of the stretch. Words
that no operation of the stretch stores to or takes off the stack are then as they were.

* `Op.height`, `Walk`: how many words are on the stack in a stretch, and which of them it keeps.
* `Stretch.Holds`: where a run is that has entered a stretch.
* `Stretch.step`: how it goes on.
* `place_inj`: a place in memory belongs to one routine.
* `Code.Traverses`: a run that comes to a place in the same activation.
* **`Stretch.traverses`**: what it finds at the end of a stretch.
-/

namespace MicroC

open Convention Code

/-! ## Heights -/

/-- How many words are on the stack behind an operation. -/
def Op.height (n : Nat) : Op → Nat
  | .push .. | .grow => n + 1
  | .pop _ => n - 1
  | .shrink m => n - (m + 1)
  | _ => n

/-- An operation that stores to no word to be kept, or jumps to a label with as many words. -/
def Op.Stays (keep : Nat → Prop) (ls : List (String × List Kind)) (n : Nat) : Op → Prop
  | .store _ m => ¬ keep m
  | .jump _ l => ∃ ks, (l, ks) ∈ ls ∧ ks.length = n
  | _ => True

/-- Items that lead from one number of words to another, jump to the given labels, and neither store to the
words to be kept nor take them off the stack. -/
def Walk (keep : Nat → Prop) (ls : List (String × List Kind)) : Nat → List Item → Nat → Prop
  | n, [], m => n = m
  | n, .label _ ks :: k, m => ks.length = n ∧ Walk keep ls n k m
  | n, .op o :: k, m =>
    o.Stays keep ls n ∧ (∀ i, keep i → i < o.height n) ∧ Walk keep ls (o.height n) k m

section Walk

variable {keep : Nat → Prop} {ls : List (String × List Kind)} {m n : Nat} {j k : List Item}

theorem Walk.append {l : Nat} (h : Walk keep ls l j m) (h' : Walk keep ls m k n) : Walk keep ls l (j ++ k) n := by
  induction j generalizing l with
  | nil => exact (show l = m from h) ▸ h'
  | cons i j ih =>
    cases i with
    | label l ks => exact ⟨h.1, ih h.2⟩
    | op o => exact ⟨h.1, h.2.1, ih h.2.2⟩

theorem Walk.eq_of_width (h : Walk keep ls n k m) (hk : width k = 0) : n = m := by
  induction k with
  | nil => exact h
  | cons i k ih =>
    cases i with
    | label l ks => exact ih h.2 (by rwa [width_label] at hk)
    | op o => rw [width_op] at hk; omega

/-- The items from the first operation on. -/
theorem Walk.skip_labels (h : Walk keep ls n k m) (hk : 0 < width k) :
    ∃ o k', .op o :: k' <:+ k ∧ width (.op o :: k') = width k ∧ Walk keep ls n (.op o :: k') m := by
  induction k with
  | nil => cases hk
  | cons i k ih =>
    cases i with
    | op o => exact ⟨o, k, List.suffix_refl _, rfl, h⟩
    | label l ks =>
      rw [width_label] at hk ⊢
      obtain ⟨o, k', hsuffix, hwidth, hwalk⟩ := ih h.2 hk
      exact ⟨o, k', hsuffix.trans (List.suffix_cons _ _), hwidth, hwalk⟩

theorem Walk.mem_labels {q : Jump} {l : String} (h : Walk keep ls n k m) (hq : .op (.jump q l) ∈ k) :
    l ∈ ls.map Prod.fst := by
  induction k generalizing n with
  | nil => cases hq
  | cons i k ih =>
    cases i with
    | label p ps => exact ih h.2 ((List.mem_cons.1 hq).resolve_left nofun)
    | op o =>
      rcases List.mem_cons.1 hq with heq | hq
      · cases heq
        obtain ⟨ks, hl, -⟩ := h.1
        exact List.mem_map_of_mem hl
      · exact ih h.2.2 hq

theorem Walk.behind {l : String} {ks : List Kind} (h : Walk keep ls n k m)
    (hn : ((labels k).map Prod.fst).Nodup) (hl : (l, ks) ∈ labels k) :
    ∃ k', behind l k = some k' ∧ Walk keep ls ks.length k' m := by
  induction k generalizing n with
  | nil => cases hl
  | cons i k ih =>
    cases i with
    | op o => exact ih h.2.2 hn hl
    | label q qs =>
      rw [labels, List.map_cons, List.nodup_cons] at hn
      rcases List.mem_cons.1 hl with heq | hl
      · cases heq
        exact ⟨k, if_pos rfl, h.1 ▸ h.2⟩
      · have hne : l ≠ q := fun heq => hn.1 (List.mem_map.2 ⟨_, hl, heq⟩)
        obtain ⟨k', hb, hk'⟩ := ih h.2 hn.2 hl
        exact ⟨k', (if_neg hne).trans hb, hk'⟩

theorem behind_append_left {l : String} {j' : List Item} (h : behind l j = some j') (k : List Item) :
    behind l (j ++ k) = some (j' ++ k) := by
  induction j with
  | nil => cases h
  | cons i j ih =>
    cases i with
    | op o => exact ih h
    | label q qs =>
      rw [List.cons_append]
      rw [behind] at h ⊢
      by_cases hl : l = q
      · rw [if_pos hl] at h ⊢
        cases h
        rfl
      · rw [if_neg hl] at h ⊢
        exact ih h

theorem behind_append_right {l : String} (h : l ∉ (labels j).map Prod.fst) (k : List Item) :
    behind l (j ++ k) = behind l k := by
  induction j with
  | nil => rfl
  | cons i j ih =>
    cases i with
    | op o => exact ih h
    | label q qs =>
      rw [labels, List.map_cons, List.mem_cons, not_or] at h
      rw [List.cons_append, behind, if_neg h.1]
      exact ih h.2

end Walk

/-! ## Words -/

section Words

variable {σ : Type} [Host σ] {prog : List Subroutine} {s t : State}

theorem under_cons_of_lt {α : Type} {x : α} {xs : List α} {i : Nat} (h : i < xs.length) :
    under (x :: xs) i = under xs i := by
  rw [under_cons, if_neg (Nat.ne_of_lt h)]

theorem under_drop {α : Type} (xs : List α) (n : Nat) {i : Nat} (h : i < (xs.drop n).length) :
    under (xs.drop n) i = under xs i := by
  conv => rhs; rw [← List.take_append_drop n xs, under_append, if_pos h]

/-- What an operation does to the words of its frame: it moves the end of the stack, and changes no word
that stays on it but the one it stores to. -/
theorem Op.run_words {o : Op} (ho : o.isData = true) {junk : Junk} {host host' : σ}
    (h : o.run prog junk s host = some (.goes t host')) :
    t.words.length = o.height s.words.length ∧
      ∀ i, i < s.words.length → i < t.words.length → (∀ r, o ≠ .store r i) → under t.words i = under s.words i := by
  cases o with
  | push src k =>
    obtain ⟨w, -, hw⟩ := Outcome.reading_goes h
    split at hw
    · cases hw
      exact ⟨rfl, fun i hi _ _ => under_cons_of_lt hi⟩
    · cases hw
  | pop r =>
    rw [Op.run] at h
    split at h
    · next w ws hws =>
      cases h
      rw [hws]
      exact ⟨rfl, fun i _ hi _ => (under_cons_of_lt hi).symm⟩
    · cases h
  | store r n =>
    rw [Op.run] at h
    split at h
    · cases h
    · obtain ⟨w, -, hw⟩ := Outcome.reading_goes h
      cases hw
      refine ⟨length_setUnder _ _ _, fun i _ _ hne => ?_⟩
      have hi : ¬ (n = i ∧ i < s.words.length) := fun hi => hne r (hi.1 ▸ rfl)
      exact (under_setUnder _ _ _ _).trans (if_neg hi)
  | peek r =>
    rw [Op.run] at h
    split at h
    · cases h
      exact ⟨rfl, fun _ _ _ _ => rfl⟩
    · cases h
  | grow =>
    cases h
    exact ⟨rfl, fun i hi _ _ => under_cons_of_lt hi⟩
  | shrink n =>
    rw [Op.run] at h
    split at h
    · cases h
      exact ⟨List.length_drop, fun i _ hi _ => under_drop _ _ hi⟩
    · cases h
  | move src r | combine f src r | compare src r =>
    obtain ⟨w, -, hw⟩ := Outcome.reading_goes h
    cases hw
    exact ⟨rfl, fun _ _ _ _ => rfl⟩
  | divide r =>
    rw [Op.run] at h
    repeat' split at h
    all_goals cases h
    exact ⟨rfl, fun _ _ _ _ => rfl⟩
  | select o src r =>
    rw [Op.run] at h
    split at h
    · cases h
    · cases h
      split <;> exact ⟨rfl, fun _ _ _ _ => rfl⟩
  | negate r | extend | nop =>
    cases h
    exact ⟨rfl, fun _ _ _ _ => rfl⟩
  | jump j l | exit | call f => cases ho

end Words

/-! ## Inside a stretch -/

/-- A stretch of the code of a routine, in one activation of it. -/
structure Stretch where
  routine : Subroutine
  front : List Item
  items : List Item
  back : List Item
  body : routine.body = front ++ (items ++ back)
  /-- The words that it keeps. -/
  keep : Nat → Prop
  /-- The numbers of words in front of it and behind it. -/
  before : Nat
  behind : Nat
  walk : Walk keep (labels items) before items behind
  callers : List Caller
  /-- What the words to be kept hold. -/
  value : Nat → Option Int64

namespace Stretch

variable {g : Stretch} {s t : State}

/-- A frame that can go on with some items of the stretch. -/
structure At (g : Stretch) (k : List Item) (ws : List (Option Int64)) : Prop where
  walk : Walk g.keep (labels g.items) ws.length k g.behind
  kept : ∀ i, g.keep i → under ws i = some (g.value i)

/-- Where a run is that has entered a stretch. -/
inductive Holds (g : Stretch) : State → Prop
  | inside {s : State} {k : List Item} (hr : s.routine = g.routine) (hrest : s.rest = k ++ g.back)
      (hc : s.callers = g.callers) (h : g.At k s.words) : Holds g s
  | calling {s : State} {k : List Item} {a : Caller} {bs : List Caller} (hc : s.callers = bs ++ a :: g.callers)
      (hb : a.back = some (g.routine, k ++ g.back)) (h : g.At k a.words) : Holds g s
  | leaving {s : State} (hrest : s.rest = []) (hc : s.callers = g.callers) : Holds g s

/-- A run that has come to the end of a stretch. -/
structure Ended (g : Stretch) (s : State) : Prop where
  routine : s.routine = g.routine
  callers : s.callers = g.callers
  length : s.words.length = g.behind
  kept : ∀ i, g.keep i → under s.words i = some (g.value i)

theorem jumps (hn : ((labels g.routine.body).map Prod.fst).Nodup) {l : String} {ks : List Kind} {k' : List Item}
    (hl : (l, ks) ∈ labels g.items) (hb : MicroC.behind l g.routine.body = some k') :
    ∃ k, k' = k ++ g.back ∧ Walk g.keep (labels g.items) ks.length k g.behind := by
  rw [g.body, labels_append, labels_append, List.map_append, List.map_append, List.nodup_append,
    List.nodup_append] at hn
  obtain ⟨-, ⟨hitems, -, -⟩, happart⟩ := hn
  obtain ⟨k, hk, hwalk⟩ := g.walk.behind hitems hl
  have hfront : l ∉ (labels g.front).map Prod.fst := fun h =>
    happart l h l (List.mem_append_left _ (List.mem_map.2 ⟨_, hl, rfl⟩)) rfl
  rw [g.body, behind_append_right hfront, behind_append_left hk] at hb
  cases hb
  exact ⟨k, rfl, hwalk⟩

variable {σ : Type} [Host σ] {prog : List Subroutine} {junk : Junk} {host host' : σ}

/-- An operation of the stretch stays in it, calls a routine from it, or goes to the exit. -/
theorem step_op (hn : ((labels g.routine.body).map Prod.fst).Nodup) {o : Op} {k : List Item}
    (hr : s.routine = g.routine) (hrest : s.rest = .op o :: (k ++ g.back)) (hc : s.callers = g.callers)
    (h : g.At (.op o :: k) s.words) (hnext : s.next prog junk host = some (.goes t host')) : g.Holds t := by
  obtain ⟨hstays, hkeep, hwalk⟩ := h.walk
  have hstore : ∀ r i, o = .store r i → ¬ g.keep i := by
    rintro r i rfl
    exact hstays
  rw [State.next, hrest] at hnext
  dsimp only at hnext
  cases o with
  | jump j l =>
    dsimp only [Op.run] at hnext
    split at hnext
    · cases hnext
    · cases hnext
      exact .inside hr rfl hc ⟨hwalk, h.kept⟩
    · obtain ⟨k', hk', heq⟩ := Option.map_eq_some_iff.1 hnext
      cases heq
      obtain ⟨ks, hl, hlen⟩ := hstays
      obtain ⟨k'', rfl, hwalk'⟩ := jumps hn hl (hr ▸ hk')
      exact .inside hr rfl hc ⟨hlen ▸ hwalk', h.kept⟩
  | exit =>
    cases hnext
    exact .leaving rfl hc
  | call f =>
    dsimp only [Op.run] at hnext
    split at hnext
    · rcases State.call_goes hnext with ⟨r, -, -, -, rfl⟩ | ⟨-, i, args, w, -, -, -, rfl⟩
      · have hcallers : (entryState r ⟨some (s.routine, k ++ g.back), s.regs, s.words⟩ s.callers s.flags).callers
            = [] ++ ⟨some (s.routine, k ++ g.back), s.regs, s.words⟩ :: g.callers := congrArg _ hc
        exact .calling hcallers (by rw [hr]) ⟨hwalk, h.kept⟩
      · exact .inside hr rfl hc ⟨hwalk, h.kept⟩
    · cases hnext
  | _ =>
    obtain ⟨hplace, -⟩ := Op.samePlace rfl hnext
    obtain ⟨hlen, hwords⟩ := Op.run_words rfl hnext
    refine .inside (hplace.routine.trans hr) hplace.rest (hplace.callers.trans hc) ⟨?_, fun i hi => ?_⟩
    · rw [hlen]
      exact hwalk
    · rw [hwords i (lt_of_under (h.kept i hi)) (hlen ▸ hkeep i hi) fun r heq => hstore r i heq hi]
      exact h.kept i hi

/-- **How a run goes on that has entered a stretch** and is not at its end. -/
theorem step (hn : ((labels g.routine.body).map Prod.fst).Nodup) (h : g.Holds s)
    (hend : ¬ (s.routine = g.routine ∧ s.rest = g.back ∧ s.callers = g.callers))
    (hnext : s.next prog junk host = some (.goes t host')) :
    g.Holds t ∨ t.callers.length < g.callers.length := by
  cases h with
  | @inside k hr hrest hc h =>
    match k, hrest, h with
    | [], hrest, h => exact absurd ⟨hr, hrest, hc⟩ hend
    | .label l ks :: k, hrest, h =>
      cases next_label hrest hnext
      exact .inl (.inside hr rfl hc ⟨h.walk.2, h.kept⟩)
    | .op o :: k, hrest, h => exact .inl (step_op hn hr hrest hc h hnext)
  | @calling k a bs hc hb h =>
    left
    rcases State.next_callers hnext with ⟨hsame, -⟩ | ⟨f, k', r', -, -, -, rfl⟩ | ⟨b, ds, r', k', -, hds, hb', rfl⟩
    · exact .calling (hsame.trans hc) hb h
    · refine .calling (?_ : _ = (⟨some (s.routine, k'), s.regs, s.words⟩ :: bs) ++ a :: g.callers) hb h
      rw [List.cons_append, ← hc]
      rfl
    · rw [hc] at hds
      cases bs with
      | cons b' bs =>
        cases hds
        exact .calling rfl hb h
      | nil =>
        cases hds
        rw [hb] at hb'
        cases hb'
        exact .inside rfl rfl rfl h
  | leaving hrest hc =>
    right
    rcases State.next_callers hnext with ⟨hsame, -⟩ | ⟨f, k', r', hrest', -⟩ | ⟨b, ds, r', k', -, hds, -, rfl⟩
    · -- Behind the last item there is only the return.
      rw [State.next, hrest] at hnext
      dsimp only [State.leave] at hnext
      split at hnext
      · cases hnext
      · next a cs hcs =>
        split at hnext
        · cases hnext
        · cases hnext
          rw [hcs] at hsame
          exact absurd (congrArg List.length hsame) (by simp)
    · rw [hrest] at hrest'
      cases hrest'
    · rw [← hc, hds]
      exact Nat.lt_succ_self _

end Stretch

/-! ## Places -/

section Places

variable {prog : List Subroutine} {r q : Subroutine} {j k : List Item}

/-- **A place in memory belongs to one routine.** -/
theorem place_inj (hn : (prog.map Subroutine.name).Nodup) (hr : r ∈ prog) (hq : q ∈ prog) {m n : Nat}
    (hm : m < r.width) (hn' : n < q.width) (h : start prog r.name + m = start prog q.name + n) :
    r = q ∧ m = n := by
  induction prog with
  | nil => cases hr
  | cons p ps ih =>
    rw [List.map_cons, List.nodup_cons] at hn
    have hne : ∀ s ∈ ps, p.name ≠ s.name := fun s hs heq => hn.1 (heq ▸ List.mem_map_of_mem hs)
    rw [start, start] at h
    rcases List.mem_cons.1 hr with rfl | hr' <;> rcases List.mem_cons.1 hq with rfl | hq'
    · rw [if_pos rfl] at h
      exact ⟨rfl, Nat.add_left_cancel h⟩
    · rw [if_pos rfl, if_neg (hne q hq')] at h
      omega
    · rw [if_pos rfl, if_neg (hne r hr')] at h
      omega
    · rw [if_neg (hne r hr'), if_neg (hne q hq')] at h
      exact ih hn.2 hr' hq' (by omega)

theorem pcOf_eq (hk : k <:+ r.body) :
    pcOf prog r k = start prog r.name + (entryWidth + (width r.body - width k)) ∧
      entryWidth + (width r.body - width k) + width k + exitWidth = r.width := by
  have := width_le_of_suffix hk
  simp only [pcOf, Subroutine.width]
  omega

theorem pcOf_inj (hn : (prog.map Subroutine.name).Nodup) (hr : r ∈ prog) (hq : q ∈ prog) (hj : j <:+ r.body)
    (hk : k <:+ q.body) (h : pcOf prog r j = pcOf prog q k) : r = q ∧ width j = width k := by
  obtain ⟨hpc, hwidth⟩ := @pcOf_eq prog r j hj
  obtain ⟨hpc', hwidth'⟩ := @pcOf_eq prog q k hk
  rw [hpc, hpc'] at h
  have hpos : 0 < exitWidth := by decide
  obtain ⟨rfl, hplace⟩ := place_inj hn hr hq (by omega) (by omega) h
  exact ⟨rfl, by omega⟩

/-- Inside a body no frame is set up or given up. -/
theorem not_between (hn : (prog.map Subroutine.name).Nodup) (hr : r ∈ prog) (hk : k <:+ r.body) :
    ¬ Between prog (pcOf prog r k) := by
  obtain ⟨hpc, hwidth⟩ := @pcOf_eq prog r k hk
  have hlink : linkWords < exitWidth := by decide
  rintro ⟨q, hq, ⟨i, hi, h⟩ | ⟨i, hi, h⟩⟩
  · have hbody : i < q.width := by
      simp only [Subroutine.width]
      omega
    rw [hpc] at h
    obtain ⟨-, hplace⟩ := place_inj hn hr hq (by omega) hbody h
    omega
  · obtain ⟨hpc', hwidth'⟩ := @pcOf_eq prog q [] (List.nil_suffix)
    rw [width_nil] at hwidth'
    rw [hpc, hpc', Nat.add_assoc, Nat.add_assoc] at h
    obtain ⟨rfl, hplace⟩ := place_inj hn hr hq (by omega) (by rw [width_nil]; omega) h
    rw [width_nil] at hplace
    omega

end Places

/-! ## To the end of a stretch -/

section Traverses

variable {σ : Type} [Host σ] {code : Code} {prog : List Subroutine} {mode : Mode} {s t : State}
  {x y z : Point σ} {m n : Nat}

/-- A run that comes from one point to another, which is the first one at a given place in the same activation:
no return has led out of it. -/
structure Code.Traverses (code : Code) (stop : Nat) (x z : Point σ) : Prop where
  runs : ∃ n, code.Runs n x z ∧ ∀ i < n, ∀ w, code.Runs i x w →
    x.cpu.returns.length ≤ w.cpu.returns.length ∧ (w.cpu.returns.length = x.cpu.returns.length → w.pc ≠ stop)
  returned : z.cpu.returns.length = x.cpu.returns.length
  stops : z.pc = stop

/-- Looks for the point that a run traverses to, within so many steps. -/
def Code.traverse? (code : Code) (stop limit : Nat) (x : Point σ) : Option (Point σ) :=
  (code.first? (fun w => w.cpu.returns.length < x.cpu.returns.length ∨
    w.cpu.returns.length = x.cpu.returns.length ∧ w.pc = stop) limit x).filter
      (·.cpu.returns.length = x.cpu.returns.length)

theorem Code.traverses_of_traverse? {stop limit : Nat} (h : code.traverse? stop limit x = some z) :
    code.Traverses stop x z := by
  obtain ⟨hz, hreturned⟩ := Option.filter_eq_some_iff.1 h
  have hreturned := of_decide_eq_true hreturned
  obtain ⟨hstop, m, hm, hbefore⟩ := Code.first?_eq_some hz
  refine ⟨⟨m, hm, fun i hi w hw => ?_⟩, hreturned, ?_⟩
  · have := of_decide_eq_false (hbefore i hi w hw)
    exact ⟨Nat.le_of_not_lt fun hlt => this (.inl hlt), fun heq hpc => this (.inr ⟨heq, hpc⟩)⟩
  · exact ((of_decide_eq_true hstop).resolve_left (by rw [hreturned]; exact Nat.lt_irrefl _)).2

namespace Stretch

variable {g : Stretch}

theorem back_suffix (g : Stretch) : g.back <:+ g.routine.body := by
  rw [g.body, ← List.append_assoc]
  exact List.suffix_append _ _

omit [Host σ] in
/-- A run that has entered a stretch and is at the place of its end has come to the end. -/
theorem ended_of_pc (hn : (prog.map Subroutine.name).Nodup) (hg : g.routine ∈ prog) (hback : 0 < width g.back)
    (hs : Running prog mode s x) (h : g.Holds s) (hlen : x.cpu.returns.length = g.callers.length)
    (hpc : x.pc = pcOf prog g.routine g.back) : g.Ended s := by
  have hplace := pcOf_inj hn hs.located.routine hg hs.located.rest g.back_suffix
    (hs.represents.pc.symm.trans hpc)
  cases h with
  | @inside k hr hrest hc h =>
    have hwidth : width k = 0 := by
      have := hplace.2
      rw [hrest, width_append] at this
      omega
    exact ⟨hr, hc, h.walk.eq_of_width hwidth, h.kept⟩
  | @calling k a bs hc hb h =>
    rw [hs.length_returns, hc, List.length_append, List.length_cons] at hlen
    omega
  | leaving hrest hc =>
    rw [hrest, width_nil] at hplace
    omega

/-- **What a run finds at the end of a stretch** that it has entered. -/
theorem traverses (himp : code.Implements prog) (hin : InOrder prog mode) (hg : g.routine ∈ prog)
    (hback : 0 < width g.back) (hs : Running prog mode s x) (h : g.Holds s)
    (hlen : x.cpu.returns.length = g.callers.length)
    (hz : code.Traverses (pcOf prog g.routine g.back) x z) : ∃ t, Running prog mode t z ∧ g.Ended t := by
  obtain ⟨n, hruns, hfirst⟩ := hz.runs
  obtain ⟨t, y, m, k, htracks, hk, hsum, hlast⟩ := hs.tracks himp hin hruns
  rw [hlen] at hfirst
  have hstop := hz.stops
  have hreturned := hz.returned.trans hlen
  clear hz hs hruns hlen
  induction htracks generalizing n with
  | @refl s x hs =>
    rcases Nat.eq_zero_or_pos k with rfl | hpos
    · cases hk
      exact ⟨s, hs, ended_of_pc himp.names hg hback hs h hreturned hstop⟩
    · -- No step is on its way through the place of an item.
      have hbetween := (hs.between himp hk hpos (hlast.resolve_left (Nat.ne_of_gt hpos))).1
      rw [hstop] at hbetween
      exact absurd hbetween (not_between himp.names hg g.back_suffix)
  | @step m s t u x y y' junk hs hnext hr htracks ih =>
    have htotal : code.Runs n x z := by
      rw [← hsum]
      exact (hr.trans htracks.runs).trans hk
    by_cases hend : s.routine = g.routine ∧ s.rest = g.back ∧ s.callers = g.callers
    · obtain ⟨hroutine, hrest, hcallers⟩ := hend
      have hpc : x.pc = pcOf prog g.routine g.back := by rw [hs.represents.pc, hroutine, hrest]
      have hlen : x.cpu.returns.length = g.callers.length := by rw [hs.length_returns, hcallers]
      rcases Nat.eq_zero_or_pos n with rfl | hpos
      · obtain rfl : x = z := htotal
        exact ⟨s, hs, ended_of_pc himp.names hg hback hs h hlen hpc⟩
      · exact absurd hpc ((hfirst 0 hpos x (.refl x)).2 hlen)
    · have hlater : ∀ i < m + k, ∀ w, code.Runs i y w →
          g.callers.length ≤ w.cpu.returns.length ∧
            (w.cpu.returns.length = g.callers.length → w.pc ≠ pcOf prog g.routine g.back) :=
        fun i hi w hw => hfirst _ (by omega) w (hr.trans hw)
      rcases g.step (hin.labels _ hg) h hend hnext with hheld | hless
      · exact ih hheld (m + k) hlater hk rfl hlast
      · -- A return has led out of the activation.
        have hy := htracks.first.length_returns
        rcases Nat.eq_zero_or_pos (m + k) with hzero | hpos
        · obtain ⟨rfl, rfl⟩ : m = 0 ∧ k = 0 := by omega
          have hyz : y = z := htracks.runs.trans hk
          subst hyz
          omega
        · have := (hlater 0 hpos y (.refl y)).1
          omega

end Stretch

end Traverses

end MicroC
