import MicroC.Proofs.Routine.Safe

/-!
# Rewriting routines

Each reduction is a chain of rewrites, which go by what is known at every place of both the old and the
new items. A register that a rewrite leaves with another value is not known any more.

* `Rewrite`: the rewrites of items. A push that is joined with its pop holds its source until then.
* `Rewrite.check`: the new items are in order.
* `Rewrite.behind`: labels stay where they are.
* `Rewrites`: chains of rewrites.
-/

namespace MicroC

/-- Operations that may stand between a push and the pop it is joined with: they leave the stack pointer
and the source of the push alone. -/
def Op.keeps (src : Src) : Op → Bool
  | .nop => true
  | .move _ r => src != .reg r
  | .store .. =>
    match src with
    | .imm _ | .reg _ => true
    | .slot _ | .param _ => false
  | _ => false

theorem Op.isData_of_keeps {src : Src} {o : Op} (h : o.keeps src = true) : o.isData = true := by
  cases o <;> first | rfl | cases h

variable (env : Setting)

/-- Items and what they are rewritten to, with what is known of both. Between a push and the pop it is
joined with, the source of the push is held; then the old stack has one word more than the shape says. -/
inductive Rewrite : Option Src → Shape → List Item → List Item → Prop
  | nil {sh : Shape} : Rewrite none sh [] []
  | label {l : String} {ks : List Kind} {sh : Shape} {j k : List Item}
      (hle : kindsLe ks sh.words = true) (h : Rewrite none (.fresh ks) j k) :
      Rewrite none sh (.label l ks :: j) (.label l ks :: k)
  | op {o : Op} {sh th : Shape} {j k : List Item} (ho : o.effect env sh = some th)
      (h : Rewrite none th j k) : Rewrite none sh (.op o :: j) (.op o :: k)
  /-- Operations that do nothing are left out. -/
  | drop {sh : Shape} {j k : List Item} (h : Rewrite none sh j k) : Rewrite none sh (.op .nop :: j) k
  /-- A constant takes the place of the register that holds it. -/
  | fold {f : Arith} {q r : Reg} {w : Int64} {sh th : Shape} {j k : List Item}
      (hq : sh.facts q = .const w) (ho : (Op.combine f (.reg q) r).effect env sh = some th)
      (h : Rewrite none th j k) :
      Rewrite none sh (.op (.combine f (.reg q) r) :: j) (.op (.combine f (.imm w) r) :: k)
  /-- A constant is not loaded where nobody needs it. -/
  | unload {r : Reg} {w : Int64} {sh : Shape} {j k : List Item} (hr : r.isScratch = true)
      (h : Rewrite none (sh.put r .nothing) j k) :
      Rewrite none sh (.op (.move (.imm w) r) :: j) (.op .nop :: k)
  /-- A move to the same place does nothing. -/
  | still {r : Reg} {sh : Shape} {j k : List Item} (h : Rewrite none (sh.put r (sh.facts r)) j k) :
      Rewrite none sh (.op (.move (.reg r) r) :: j) (.op .nop :: k)
  /-- A push is joined with the pop that takes its value. -/
  | hold {src : Src} {sh : Shape} {j k : List Item} (hs : src.ok env sh = true)
      (h : Rewrite (some src) sh j k) : Rewrite none sh (.op (.push src .temp) :: j) (.op .nop :: k)
  | pass {src : Src} {o : Op} {sh th : Shape} {j k : List Item} (hkeep : o.keeps src = true)
      (ho : o.effect env sh = some th) (h : Rewrite (some src) th j k) :
      Rewrite (some src) sh (.op o :: j) (.op o :: k)
  | release {src : Src} {r : Reg} {sh : Shape} {j k : List Item} (hs : src.ok env sh = true)
      (h : Rewrite none (sh.put r (src.fact sh)) j k) :
      Rewrite (some src) sh (.op (.pop r) :: j) (.op (.move src r) :: k)

variable {env} {held : Option Src} {sh th : Shape} {j k : List Item}

theorem Rewrite.refl (h : Check env sh k) : Rewrite env none sh k k := by
  induction k generalizing sh with
  | nil => exact .nil
  | cons i k ih =>
    cases i with
    | label l ks => exact .label h.1 (ih h.2)
    | op o =>
      obtain ⟨th, ho, hk⟩ := h
      exact .op ho (ih hk)

theorem Shape.put_nothing_le (sh : Shape) (r : Reg) : (sh.put r .nothing).Le sh := by
  refine ⟨kindsLe_refl _, id, nofun, fun q => ?_⟩
  by_cases hq : q = r
  · simp [Shape.put, hq, Fact.le]
  · simp [Shape.put, hq, Fact.le.refl]

theorem Shape.put_self_le (sh : Shape) (r : Reg) : (sh.put r (sh.facts r)).Le sh := by
  refine ⟨kindsLe_refl _, id, nofun, fun q => ?_⟩
  by_cases hq : q = r
  · simp [Shape.put, hq, Fact.le.refl]
  · simp [Shape.put, hq, Fact.le.refl]

/-- **What items are rewritten to is in order.** -/
theorem Rewrite.check (h : Rewrite env held sh j k) : Check env sh k := by
  induction h with
  | nil => trivial
  | label hle _ ih => exact ⟨hle, ih⟩
  | op ho _ ih => exact ⟨_, ho, ih⟩
  | drop _ ih => exact ih
  | fold _ ho _ ih =>
    obtain ⟨-, hr, -, rfl⟩ := Op.effect_combine.1 ho
    refine ⟨_, Op.effect_combine.2 ⟨rfl, hr, ?_, rfl⟩, ih⟩
    next f _ _ _ _ _ _ _ _ => cases f <;> rfl
  | unload _ _ ih => exact ⟨_, Op.effect_nop.2 rfl, ih.mono (Shape.put_nothing_le _ _)⟩
  | still _ ih => exact ⟨_, Op.effect_nop.2 rfl, ih.mono (Shape.put_self_le _ _)⟩
  | hold _ _ ih => exact ⟨_, Op.effect_nop.2 rfl, ih⟩
  | pass _ ho _ ih => exact ⟨_, ho, ih⟩
  | release hs _ ih => exact ⟨_, Op.effect_move.2 ⟨hs, rfl⟩, ih⟩

theorem Rewrite.labels_eq (h : Rewrite env held sh j k) : labels k = labels j := by
  induction h with
  | nil => rfl
  | label _ _ ih => rw [labels, labels, ih]
  | _ => assumption

theorem Rewrite.width_le (h : Rewrite env held sh j k) : width k ≤ width j := by
  induction h with
  | nil => exact Nat.le_refl _
  | label _ _ ih => simpa using ih
  | _ =>
    simp only [width_op]
    omega

/-- Items behind a label are rewritten to those behind the same label. -/
theorem Rewrite.behind {l : String} {ks : List Kind} (h : Rewrite env held sh j k)
    (hn : ((labels j).map Prod.fst).Nodup) (hl : (l, ks) ∈ labels j) :
    ∃ j' k', behind l j = some j' ∧ behind l k = some k' ∧ Rewrite env none (.fresh ks) j' k' := by
  induction h with
  | nil => cases hl
  | @label m ms sh j k _ hjk ih =>
    rw [labels, List.map_cons, List.nodup_cons] at hn
    rcases List.mem_cons.1 hl with heq | hl
    · cases heq
      exact ⟨j, k, if_pos rfl, if_pos rfl, hjk⟩
    · have hne : l ≠ m := fun heq => hn.1 (List.mem_map.2 ⟨_, hl, heq⟩)
      obtain ⟨j', k', hj, hk, h'⟩ := ih hn.2 hl
      exact ⟨j', k', (if_neg hne).trans hj, (if_neg hne).trans hk, h'⟩
  | op _ _ ih => exact ih hn hl
  | drop _ ih => exact ih hn hl
  | fold _ _ _ ih => exact ih hn hl
  | unload _ _ ih => exact ih hn hl
  | still _ ih => exact ih hn hl
  | hold _ _ ih => exact ih hn hl
  | pass _ _ _ ih => exact ih hn hl
  | release _ _ ih => exact ih hn hl

/-! ## Chains -/

/-- Chains of rewrites. -/
inductive Rewrites (env : Setting) (sh : Shape) : List Item → List Item → Prop
  | refl (k : List Item) : Rewrites env sh k k
  | step {i j k : List Item} (h : Rewrite env none sh i j) (hs : Rewrites env sh j k) : Rewrites env sh i k

theorem Rewrites.one (h : Rewrite env none sh j k) : Rewrites env sh j k := .step h (.refl k)

theorem Rewrites.trans {i : List Item} (h : Rewrites env sh i j) (h' : Rewrites env sh j k) :
    Rewrites env sh i k := by
  induction h with
  | refl => exact h'
  | step hr _ ih => exact .step hr (ih h')

theorem Rewrites.check (h : Rewrites env sh j k) (hj : Check env sh j) : Check env sh k := by
  induction h with
  | refl => exact hj
  | step hr _ ih => exact ih hr.check

theorem Rewrites.op {o : Op} (ho : o.effect env sh = some th) (h : Rewrites env th j k) :
    Rewrites env sh (.op o :: j) (.op o :: k) := by
  induction h with
  | refl => exact .refl _
  | step hr _ ih => exact .step (.op ho hr) ih

theorem Rewrites.label {l : String} {ks : List Kind} (hle : kindsLe ks sh.words = true)
    (h : Rewrites env (.fresh ks) j k) : Rewrites env sh (.label l ks :: j) (.label l ks :: k) := by
  induction h with
  | refl => exact .refl _
  | step hr _ ih => exact .step (.label hle hr) ih

end MicroC
