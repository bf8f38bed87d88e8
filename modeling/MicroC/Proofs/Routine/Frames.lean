import MicroC.Proofs.Routine.Level
import MicroC.Proofs.Routine.Meets

/-!
# How large frames are

Only operations put words on the stack, each of them one, so the frame of a routine has no more words than the
routine has instructions, the words that link it to the next frame included. Hence the number of frames bounds the
depth of the stack.

* `Subroutine.Level.add_width_le`: at a place of a routine there are no more words than there is code in front of it.
* `State.Level.depth_le`: the number of frames bounds the depth of the stack.
* **`not_spills`**: where there is room for all frames the stack does not run over.
-/

namespace MicroC

open Convention

theorem Walk.le_width {keep : Nat → Prop} {ls : List (String × List Kind)} {m n : Nat} {k : List Item}
    (h : Walk keep ls n k m) : m ≤ n + width k := by
  induction k generalizing n with
  | nil => exact Nat.le_of_eq h.symm
  | cons i k ih =>
    cases i with
    | label l ks =>
      rw [width_label]
      exact ih h.2
    | op o =>
      have hheight : o.height n ≤ n + 1 := by cases o <;> simp only [Op.height] <;> omega
      have := ih h.2.2
      rw [width_op]
      omega

/-- At a place of a routine there are no more words than there is code in front of it. -/
theorem Subroutine.Level.add_width_le {r : Subroutine} {k : List Item} {n : Nat} (h : r.Level k n) :
    n + MicroC.width k ≤ MicroC.width r.body := by
  obtain ⟨front, hbody, hfront⟩ := h
  have := hfront.le_width
  rw [hbody, width_append]
  omega

/-- The words that link two frames are as many as the instructions that put them there. -/
theorem Subroutine.linkWords_add_width_le (r : Subroutine) : linkWords + MicroC.width r.body ≤ r.width :=
  Nat.le_add_right (entryWidth + MicroC.width r.body) exitWidth

section Frames

variable {prog : List Subroutine} {w : Nat} {s t : State}

/-- The depth of the stack above a frame. -/
theorem contextDepth_le (hw : ∀ r ∈ prog, r.width ≤ w) {cs : List Caller} (h : Linked prog cs)
    (hl : ∀ a ∈ cs, ∀ r k, a.back = some (r, k) → r.Level k a.words.length) :
    contextDepth cs + w ≤ cs.length * w + linkWords := by
  induction h with
  | outermost regs => exact Nat.le_of_eq (by simp [contextDepth, Nat.add_comm])
  | @call r k regs ws cs hr _ _ _ ih =>
    have hrest := ih fun a ha => hl a (List.mem_cons_of_mem _ ha)
    have hwords := (hl _ List.mem_cons_self r k rfl).add_width_le
    have hwidth := Nat.le_trans r.linkWords_add_width_le (hw r hr)
    rw [contextDepth, List.length_cons, Nat.succ_mul]
    dsimp only at hwords ⊢
    omega

/-- **The number of frames bounds the depth of the stack.** What is left of the code tells how much is still free. -/
theorem State.Level.depth_le (hw : ∀ r ∈ prog, r.width ≤ w) (hs : s.Level) (hloc : Located prog s)
    (hrest : s.rest ≠ []) : s.depth + width s.rest ≤ s.callers.length * w := by
  have hwords := (hs.here hrest).add_width_le
  have hcontext := contextDepth_le hw hloc.linked hs.callers
  have hwidth := Nat.le_trans s.routine.linkWords_add_width_le (hw _ hloc.routine)
  rw [State.depth]
  omega

/-- Where the stack runs over there is no room for all frames. -/
theorem State.Overflows.lt_frames (ho : s.Overflows prog) (hw : ∀ r ∈ prog, r.width ≤ w) (hs : s.Level)
    (hloc : Located prog s) : stackWords < s.frames * w := by
  have hwidth := Nat.le_trans s.routine.linkWords_add_width_le (hw _ hloc.routine)
  have hdepth := hs.depth_le hw hloc
  unfold State.frames
  cases ho with
  | push hrest _ hfull =>
    rw [hrest] at hdepth ⊢
    have := hdepth (List.cons_ne_nil _ _)
    rw [width_op] at this
    dsimp only
    omega
  | call hrest _ _ hfull =>
    rw [hrest] at hdepth ⊢
    have := hdepth (List.cons_ne_nil _ _)
    dsimp only
    rw [Nat.succ_mul]
    omega

variable {σ : Type} [Host σ] {host host' : σ} {n : Nat}

/-- Chains of steps keep to the number of words at each place. -/
theorem Leads.level (h : Leads prog n s host t host') (hprog : ∀ r ∈ prog, r.Leveled)
    (hn : ∀ r ∈ prog, ((labels r.body).map Prod.fst).Nodup) (hs : s.Level) (hloc : Located prog s) :
    t.Level ∧ Located prog t := by
  induction h with
  | refl => exact ⟨hs, hloc⟩
  | @step _ s _ _ _ _ _ hstep _ ih =>
    have hnext := hstep ⟨.ok 0, none⟩
    exact ih (hs.next (hprog _ hloc.routine) (hn _ hloc.routine) hnext) (hloc.next hnext)

/-- **Where there is room for all frames the stack does not run over.** -/
theorem not_spills {most : Nat} (hw : ∀ r ∈ prog, r.width ≤ w) (hroom : most * w ≤ stackWords)
    (hprog : ∀ r ∈ prog, r.Leveled) (hn : ∀ r ∈ prog, ((labels r.body).map Prod.fst).Nodup) (hs : s.Level)
    (hloc : Located prog s) : ¬ Spills prog most s host := by
  rintro ⟨m, t, host', hl, hover, hframes⟩
  obtain ⟨ht, hloc'⟩ := hl.level hprog hn hs hloc
  have hlt := hover.lt_frames hw ht hloc'
  have hle := Nat.mul_le_mul_right w hframes
  omega

end Frames

end MicroC
