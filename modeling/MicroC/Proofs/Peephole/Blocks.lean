import Mathlib.Data.List.Forall2
import MicroC.Peephole
import MicroC.Proofs.Peephole.Flow
import MicroC.Proofs.Peephole.Rewrite

/-!
# Reductions of blocks are rewrites

What the reductions make of the instructions of a block is a chain of rewrites of the items they spell,
whatever stands behind the block.

* `Reduces`: such a function on the instructions of a block.
* `Rewrite.join`: a push and the pop that takes its value.
* `foldUses_spec`: a constant goes into the sums and differences that use it.
* **`reduces_reduceRound`**: a round of all reductions.
-/

namespace MicroC

open Convention Operand List

variable {env : Setting} {exit : String} {sh th : Shape} {j k : List Item} {os : List Op}

/-- Operations as items. -/
abbrev items (os : List Op) : List Item := os.map .op

/-- The end of a block: a label, or the end of the body. -/
def AtEnd : List Item → Prop
  | .op _ :: _ => False
  | _ => True

/-- What a function makes of the instructions of a block is a chain of rewrites. -/
def Reduces (env : Setting) (exit : String) (f : List Instruction → List Instruction) : Prop :=
  ∀ code os, Forall₂ (Instruction.Spells exit) code os → ∃ os', Forall₂ (Instruction.Spells exit) (f code) os' ∧
    ∀ sh k, AtEnd k → Check env sh (items os ++ k) → Rewrites env sh (items os ++ k) (items os' ++ k)

theorem Reduces.comp {f g : List Instruction → List Instruction} (hg : Reduces env exit g)
    (hf : Reduces env exit f) : Reduces env exit fun code => g (f code) := by
  intro code os h
  obtain ⟨os₁, h₁, hr₁⟩ := hf code os h
  obtain ⟨os₂, h₂, hr₂⟩ := hg (f code) os₁ h₁
  refine ⟨os₂, h₂, fun sh k hk hc => ?_⟩
  have hr := hr₁ sh k hk hc
  exact hr.trans (hr₂ sh k hk (hr.check hc))

theorem Rewrites.behind_ops (h : ∀ th, Check env th j → Rewrites env th j k)
    (hj : Check env sh (items os ++ j)) : Rewrites env sh (items os ++ j) (items os ++ k) := by
  induction os generalizing sh with
  | nil => exact h sh hj
  | cons o os ih =>
    obtain ⟨th, ho, hj⟩ := hj
    exact .op ho (ih hj)

/-! ## Dropping nops -/

theorem Op.eq_nop {o : Op} (h : o.opcode = .nop) : o = .nop := by
  cases o with
  | nop => rfl
  | combine f s r => cases f <;> cases h
  | select c s r => cases c <;> cases h
  | jump j l => cases j <;> cases h
  | _ => cases h

theorem Instruction.Spells.isNop {i : Instruction} {o : Op} (h : i.Spells exit o) :
    i.isNop = true ↔ o = .nop := by
  rw [Instruction.isNop, h.opcode, beq_iff_eq]
  exact ⟨Op.eq_nop, fun ho => ho ▸ rfl⟩

theorem reduces_removeNops : Reduces env exit fun code => (removeNops code).code := by
  intro code os h
  induction h with
  | nil => exact ⟨[], .nil, fun sh k _ _ => .refl _⟩
  | @cons i o code os hi _ ih =>
    obtain ⟨os', hos', hr⟩ := ih
    simp only [removeNops] at hos' ⊢
    by_cases ho : o = .nop
    · subst ho
      rw [List.filter_cons_of_neg (by simp [hi.isNop.2 rfl])]
      refine ⟨os', hos', fun sh k hk hc => ?_⟩
      obtain ⟨th, hth, hc⟩ := hc
      obtain rfl := Op.effect_nop.1 hth
      exact .step (.drop (.refl hc)) (hr sh k hk hc)
    · have hno : i.isNop = false := by
        rw [← Bool.not_eq_true, hi.isNop]
        exact ho
      rw [List.filter_cons_of_pos (by simp [hno])]
      refine ⟨o :: os', .cons hi hos', fun sh k hk hc => ?_⟩
      obtain ⟨th, hth, hc⟩ := hc
      exact .op hth (hr th k hk hc)

/-! ## Moves to the same place -/

theorem Op.eq_move {o : Op} (h : o.opcode = .movq) :
    (∃ s r, o = .move s r) ∨ (∃ r n, o = .store r n) ∨ ∃ r, o = .peek r := by
  cases o with
  | move s r => exact .inl ⟨s, r, rfl⟩
  | store r n => exact .inr (.inl ⟨r, n, rfl⟩)
  | peek r => exact .inr (.inr ⟨r, rfl⟩)
  | combine f s r => cases f <;> cases h
  | select c s r => cases c <;> cases h
  | jump j l => cases j <;> cases h
  | _ => cases h

theorem Instruction.Spells.isSelfMove {i : Instruction} {o : Op} (h : i.Spells exit o)
    (hi : isSelfMove i = true) : ∃ r, o = .move (.reg r) r := by
  rw [MicroC.isSelfMove, Bool.and_eq_true, beq_iff_eq, beq_iff_eq, h.opcode, h.operand, h.operand] at hi
  obtain ⟨hop, htext⟩ := hi
  rcases Op.eq_move hop with ⟨s, r, rfl⟩ | ⟨r, n, rfl⟩ | ⟨r, rfl⟩
  · exact ⟨r, by rw [Src.text_eq_name (s := s) (r := r) htext]⟩
  · have := Src.text_eq_name (s := .slot n) (r := r) htext.symm
    cases this
  · have hm := r.isMemory_name
    rw [← show "(%rsp)" = r.name from htext, isMemory_top] at hm
    cases hm

theorem spells_nop : Instruction.nop.Spells exit .nop := ⟨rfl, rfl⟩

theorem reduces_removeSelfMoves : Reduces env exit fun code => (removeSelfMoves code).code := by
  intro code os h
  induction h with
  | nil => exact ⟨[], .nil, fun sh k _ _ => .refl _⟩
  | @cons i o code os hi _ ih =>
    obtain ⟨os', hos', hr⟩ := ih
    simp only [removeSelfMoves] at hos' ⊢
    rw [List.map_cons]
    by_cases hself : isSelfMove i = true
    · obtain ⟨r, rfl⟩ := hi.isSelfMove hself
      rw [if_pos hself]
      refine ⟨.nop :: os', .cons spells_nop hos', fun sh k hk hc => ?_⟩
      obtain ⟨th, hth, hc⟩ := hc
      obtain ⟨-, rfl⟩ := Op.effect_move.1 hth
      have hc' := hc.mono (sh.put_self_le r)
      exact .step (.still (.refl hc)) (.op (Op.effect_nop.2 rfl) (hr sh k hk hc'))
    · rw [if_neg hself]
      refine ⟨o :: os', .cons hi hos', fun sh k hk hc => ?_⟩
      obtain ⟨th, hth, hc⟩ := hc
      exact .op hth (hr th k hk hc)

/-! ## Pushes and pops -/

/-- With one temporary more on the stack. -/
def Shape.onTemp (sh : Shape) : Shape := { sh with words := .temp :: sh.words, wide := false }

theorem isVariable_onTemp {ks : List Kind} {n : Nat} (h : Src.isVariable env (.temp :: ks) n = true) :
    Src.isVariable env ks n = true := by
  unfold Src.isVariable at h ⊢
  rw [under_cons] at h
  by_cases hn : n = ks.length
  · rw [if_pos hn] at h
    cases h
  · rwa [if_neg hn] at h

theorem Src.ok_onTemp {s : Src} (h : s.ok env sh.onTemp = true) : s.ok env sh = true := by
  cases s with
  | slot n => exact isVariable_onTemp h
  | _ => exact h

/-- An operation that leaves a source alone does the same below a temporary. -/
theorem Op.effect_onTemp {src : Src} {o : Op} (hkeep : o.keeps src = true)
    (ho : o.effect env sh.onTemp = some th) :
    ∃ sh', o.effect env sh = some sh' ∧ th = sh'.onTemp ∧ (src.ok env sh = true → src.ok env sh' = true) := by
  cases o with
  | nop =>
    obtain rfl := effect_nop.1 ho
    exact ⟨sh, effect_nop.2 rfl, rfl, id⟩
  | move s r =>
    obtain ⟨hs, rfl⟩ := effect_move.1 ho
    have hfact : s.fact sh.onTemp = s.fact sh := by cases s <;> rfl
    refine ⟨_, effect_move.2 ⟨Src.ok_onTemp hs, rfl⟩, by rw [hfact]; rfl, fun hok => ?_⟩
    cases src with
    | reg q =>
      have hq : q ≠ r := by simpa [Op.keeps] using hkeep
      simpa [Src.ok, Shape.put, hq] using hok
    | _ => exact hok
  | store r n =>
    obtain ⟨hr, hn, rfl⟩ := effect_store.1 ho
    exact ⟨sh, effect_store.2 ⟨hr, isVariable_onTemp hn, rfl⟩, rfl, id⟩
  | _ => cases hkeep

/-- Operations between a push and its pop leave the words alone. -/
theorem Op.effect_keeps_words {src : Src} {o : Op} (hkeep : o.keeps src = true)
    (ho : o.effect env sh = some th) : th.words = sh.words := by
  cases o with
  | nop => rw [effect_nop.1 ho]
  | move s r =>
    obtain ⟨-, rfl⟩ := effect_move.1 ho
    rfl
  | store r n =>
    obtain ⟨-, -, rfl⟩ := effect_store.1 ho
    rfl
  | _ => cases hkeep

/-- What a pop takes is a temporary. -/
theorem Check.temp_of_pop {src : Src} {κ : Kind} {ks : List Kind} {r : Reg} (hw : sh.words = κ :: ks)
    (hkeep : ∀ o ∈ os, o.keeps src = true) (h : Check env sh (items os ++ .op (.pop r) :: k)) :
    κ = .temp := by
  induction os generalizing sh with
  | nil =>
    obtain ⟨th, hth, -⟩ := h
    obtain ⟨ls, hls, -⟩ := Op.effect_pop.1 hth
    rw [hw] at hls
    cases hls
    rfl
  | cons o os ih =>
    obtain ⟨th, hth, h⟩ := h
    have hwords := Op.effect_keeps_words (hkeep o List.mem_cons_self) hth
    exact ih (hwords.trans hw) (fun o ho => hkeep o (List.mem_cons_of_mem _ ho)) h

/-- From the push on, its source is held. -/
theorem Rewrite.held {src : Src} {r : Reg} (hkeep : ∀ o ∈ os, o.keeps src = true)
    (hok : src.ok env sh = true) (h : Check env sh.onTemp (items os ++ .op (.pop r) :: k)) :
    Rewrite env (some src) sh (items os ++ .op (.pop r) :: k) (items os ++ .op (.move src r) :: k) := by
  induction os generalizing sh with
  | nil =>
    obtain ⟨th, hth, h⟩ := h
    obtain ⟨ks, hks, rfl⟩ := Op.effect_pop.1 hth
    cases hks
    have hnarrow : Shape.Le { sh with wide := false } sh :=
      ⟨kindsLe_refl _, id, Bool.noConfusion, fun _ => .refl _⟩
    have hvalue : Fact.value.le (src.fact sh) := Src.fact_ne_nothing hok
    exact .release hok (.refl (h.mono (hnarrow.put r hvalue)))
  | cons o os ih =>
    obtain ⟨th, hth, h⟩ := h
    have ho := hkeep o List.mem_cons_self
    obtain ⟨sh', hsh', rfl, hok'⟩ := Op.effect_onTemp ho hth
    exact .pass ho hsh' (ih (fun o ho => hkeep o (List.mem_cons_of_mem _ ho)) (hok' hok) h)

/-- **A push is joined with the pop that takes its value.** -/
theorem Rewrite.join {src : Src} {κ : Kind} {r : Reg} (hkeep : ∀ o ∈ os, o.keeps src = true)
    (h : Check env sh (.op (.push src κ) :: (items os ++ .op (.pop r) :: k))) :
    Rewrite env none sh (.op (.push src κ) :: (items os ++ .op (.pop r) :: k))
      (.op .nop :: (items os ++ .op (.move src r) :: k)) := by
  obtain ⟨th, hth, h⟩ := h
  obtain ⟨hok, -, -, -, rfl⟩ := Op.effect_push.1 hth
  obtain rfl := h.temp_of_pop rfl hkeep
  exact .hold hok (.held hkeep hok h)

theorem Op.eq_push {o : Op} (h : o.opcode = .pushq) : ∃ s κ, o = .push s κ := by
  cases o with
  | push s κ => exact ⟨s, κ, rfl⟩
  | combine f s r => cases f <;> cases h
  | select c s r => cases c <;> cases h
  | jump j l => cases j <;> cases h
  | _ => cases h

theorem Op.eq_pop {o : Op} (h : o.opcode = .popq) : ∃ r, o = .pop r := by
  cases o with
  | pop r => exact ⟨r, rfl⟩
  | combine f s r => cases f <;> cases h
  | select c s r => cases c <;> cases h
  | jump j l => cases j <;> cases h
  | _ => cases h

/-- Operations that the search for a push passes. -/
def Op.passes : Op → Bool
  | .nop | .move .. | .store .. => true
  | _ => false

/-- What the search for a push finds. -/
theorem findPush_spec {past window before : List Instruction} {push : Instruction} {ps : List Op}
    (h : findPush past = some (window, push, before)) (hps : Forall₂ (Instruction.Spells exit) past ps) :
    ∃ ws src κ bs, ps = ws ++ .push src κ :: bs ∧ Forall₂ (Instruction.Spells exit) window ws ∧
      push.Spells exit (.push src κ) ∧ Forall₂ (Instruction.Spells exit) before bs ∧
      ∀ o ∈ ws, o.passes = true := by
  induction hps generalizing window with
  | nil => cases h
  | @cons i o past ps hi hpast ih =>
    rw [findPush] at h
    have more : o.passes = true →
        (findPush past).map (fun found => (i :: found.1, found.2)) =
          some (window, push, before) → ∃ ws src κ bs, o :: ps = ws ++ .push src κ :: bs ∧
          Forall₂ (Instruction.Spells exit) window ws ∧ push.Spells exit (.push src κ) ∧
          Forall₂ (Instruction.Spells exit) before bs ∧ ∀ o ∈ ws, o.passes = true := by
      intro ho hx
      obtain ⟨⟨w, p, b⟩, hw, heq⟩ := Option.map_eq_some_iff.1 hx
      cases heq
      obtain ⟨ws, src, κ, bs, rfl, hws, hp, hbs, hpass⟩ := ih hw
      refine ⟨o :: ws, src, κ, bs, rfl, .cons hi hws, hp, hbs, fun x hx => ?_⟩
      rcases List.mem_cons.1 hx with rfl | hx
      · exact ho
      · exact hpass x hx
    split at h
    · next hop =>
      cases h
      obtain ⟨s, κ, rfl⟩ := Op.eq_push (hi.opcode ▸ hop)
      exact ⟨[], s, κ, ps, rfl, .nil, hi, hpast, by simp⟩
    · next hop =>
      obtain rfl := Op.eq_nop (hi.opcode ▸ hop)
      exact more rfl h
    · next hop =>
      split at h
      · cases h
      · next hm =>
        rcases Op.eq_move (hi.opcode ▸ hop) with ⟨s, r, rfl⟩ | ⟨r, n, rfl⟩ | ⟨r, rfl⟩
        · exact more rfl h
        · exact more rfl h
        · -- A read of the top of the stack names the stack pointer.
          refine absurd ?_ hm
          rw [Instruction.mentions, hi.operands]
          simp [Op.operands, registers_top]
    · cases h

theorem Instruction.Spells.keeps {i : Instruction} {o : Op} {src : Src} (h : i.Spells exit o)
    (hpass : o.passes = true) (hp : preserves src.text i = true) : o.keeps src = true := by
  cases o with
  | nop => rfl
  | move s r =>
    cases src with
    | reg q =>
      have hno : i.isNop = false := by
        rw [← Bool.not_eq_true, h.isNop]
        simp
      have hw : q.name ∉ i.writes := by
        simp only [preserves, hno, Bool.false_or, Bool.and_eq_true, List.all_eq_true] at hp
        have := hp.1 q.name ((Src.mem_registers_text (.reg q) q).2 List.mem_cons_self)
        simpa using this
      rw [h.mem_writes rfl] at hw
      simpa [Op.keeps, Op.writes] using hw
    | _ => rfl
  | store r n =>
    have hm : i.writesMemory = true := by
      rw [Instruction.writesMemory, h.opcode]
      show isMemory (i.operand 1) = true
      rw [h.operand]
      exact (Src.slot n).isMemory_text
    have hno : i.isNop = false := by
      rw [← Bool.not_eq_true, h.isNop]
      simp
    simp only [preserves, hno, hm, Bool.false_or, Bool.and_eq_true, Src.isMemory_text] at hp
    cases src with
    | imm w => rfl
    | reg q => rfl
    | slot m => exact absurd hp.2 (by simp [Src.inMemory])
    | param m => exact absurd hp.2 (by simp [Src.inMemory])
  | _ => cases hpass

theorem exists_spells {code : List Instruction} {o : Op} (h : Forall₂ (Instruction.Spells exit) code os)
    (ho : o ∈ os) : ∃ i ∈ code, i.Spells exit o := by
  induction h with
  | nil => cases ho
  | @cons i o' code os hi _ ih =>
    rcases List.mem_cons.1 ho with rfl | ho
    · exact ⟨i, List.mem_cons_self, hi⟩
    · obtain ⟨i', hi', hio⟩ := ih ho
      exact ⟨i', List.mem_cons_of_mem _ hi', hio⟩

/-- Joining a pop with its push rewrites what was gone through. -/
theorem joinPop?_spec {past joined : List Instruction} {pop : Instruction} {ps : List Op} {o : Op}
    (hps : Forall₂ (Instruction.Spells exit) past ps) (hpop : pop.Spells exit o) (hop : pop.opcode = .popq)
    (h : joinPop? past pop = some joined) :
    ∃ qs, Forall₂ (Instruction.Spells exit) joined qs ∧ ∀ sh k, Check env sh (items (ps.reverse ++ [o]) ++ k) →
      Rewrites env sh (items (ps.reverse ++ [o]) ++ k) (items qs.reverse ++ k) := by
  obtain ⟨r, rfl⟩ := Op.eq_pop (hpop.opcode ▸ hop)
  unfold joinPop? at h
  split at h
  · cases h
  · next window push before hfind =>
    obtain ⟨ws, src, κ, bs, rfl, hws, hpush, hbs, hpass⟩ := findPush_spec hfind hps
    have hsrc : push.operand 0 = src.text := hpush.operand 0
    have hdst : pop.operand 0 = r.name := hpop.operand 0
    dsimp only at h
    rw [hsrc, hdst] at h
    split at h
    · next hall =>
      cases h
      rw [Bool.and_eq_true, List.all_eq_true] at hall
      have hkeep : ∀ o ∈ ws.reverse, o.keeps src = true := by
        intro o ho
        rw [List.mem_reverse] at ho
        obtain ⟨i, hi, hio⟩ := exists_spells hws ho
        exact hio.keeps (hpass o ho) (hall.1 i hi)
      refine ⟨.move src r :: (ws ++ .nop :: bs), ?_, fun sh k hc => ?_⟩
      · exact .cons ⟨rfl, rfl⟩ (List.rel_append hws (.cons spells_nop hbs))
      · have hold : items ((ws ++ .push src κ :: bs).reverse ++ [.pop r]) ++ k =
            items bs.reverse ++ .op (.push src κ) :: (items ws.reverse ++ .op (.pop r) :: k) := by
          simp [items]
        have hnew : items (.move src r :: (ws ++ .nop :: bs)).reverse ++ k =
            items bs.reverse ++ .op .nop :: (items ws.reverse ++ .op (.move src r) :: k) := by
          simp [items]
        rw [hold] at hc ⊢
        rw [hnew]
        exact Rewrites.behind_ops (fun th hth => .one (.join hkeep hth)) hc
    · cases h

theorem combineFrom_spec {past code : List Instruction} {ps os : List Op}
    (hps : Forall₂ (Instruction.Spells exit) past ps) (hos : Forall₂ (Instruction.Spells exit) code os) :
    ∃ os', Forall₂ (Instruction.Spells exit) (combineFrom past code).code os' ∧
      ∀ sh k, Check env sh (items (ps.reverse ++ os) ++ k) →
        Rewrites env sh (items (ps.reverse ++ os) ++ k) (items os' ++ k) := by
  induction hos generalizing past ps with
  | nil =>
    refine ⟨ps.reverse, List.forall₂_reverse_iff.2 hps, fun sh k _ => ?_⟩
    rw [List.append_nil]
    exact .refl _
  | @cons i o code os hi hos ih =>
    rw [combineFrom]
    split
    · next joined hj =>
      split at hj
      · next hop =>
        obtain ⟨qs, hqs, hr⟩ := @joinPop?_spec env _ _ _ _ _ _ hps hi hop hj
        obtain ⟨os', hos', hr'⟩ := ih hqs
        refine ⟨os', hos', fun sh k hc => ?_⟩
        have hcons : items (ps.reverse ++ o :: os) ++ k = items (ps.reverse ++ [o]) ++ (items os ++ k) := by
          simp [items]
        have hjoined : items (qs.reverse ++ os) ++ k = items qs.reverse ++ (items os ++ k) := by
          simp [items]
        rw [hcons] at hc ⊢
        have hstep := hr sh _ hc
        have hrest := hr' sh k (by rw [hjoined]; exact hstep.check hc)
        rw [hjoined] at hrest
        exact hstep.trans hrest
      · cases hj
    · obtain ⟨os', hos', hr⟩ := ih (.cons hi hps)
      refine ⟨os', hos', fun sh k hc => ?_⟩
      have hcons : items (ps.reverse ++ o :: os) ++ k = items ((o :: ps).reverse ++ os) ++ k := by
        simp [items]
      rw [hcons] at hc ⊢
      exact hr sh k hc

theorem reduces_combinePushPop : Reduces env exit fun code => (combinePushPop code).code := by
  intro code os h
  obtain ⟨os', hos', hr⟩ := @combineFrom_spec env _ _ _ _ _ .nil h
  exact ⟨os', hos', fun sh k _ hc => hr sh k hc⟩

/-! ## Constants -/

/-- Without what was known of a register. -/
def Shape.forget (sh : Shape) (q : Reg) : Shape :=
  { sh with facts := fun r => if r = q then .nothing else sh.facts r }

section Forget

variable {q : Reg}

theorem Shape.facts_forget {r : Reg} (h : r ≠ q) : (sh.forget q).facts r = sh.facts r := if_neg h

theorem Src.ok_forget {s : Src} (h : q ∉ s.reads) (hs : s.ok env sh = true) : s.ok env (sh.forget q) = true := by
  cases s with
  | reg r =>
    have hr : r ≠ q := fun heq => h (heq ▸ List.mem_cons_self)
    rwa [Src.ok, Shape.facts_forget hr]
  | _ => exact hs

theorem Src.fact_forget {s : Src} (h : q ∉ s.reads) : s.fact (sh.forget q) = s.fact sh := by
  cases s with
  | reg r => exact Shape.facts_forget fun heq => h (heq ▸ List.mem_cons_self)
  | _ => rfl

theorem Shape.put_forget_self (f : Fact) : (sh.forget q).put q f = sh.put q f := by
  simp only [Shape.put, Shape.forget, Shape.mk.injEq, true_and]
  funext r
  by_cases hr : r = q
  · rw [if_pos hr, if_pos hr]
  · rw [if_neg hr, if_neg hr, if_neg hr]

theorem Shape.put_forget {r : Reg} (h : r ≠ q) (f : Fact) : (sh.forget q).put r f = (sh.put r f).forget q := by
  simp only [Shape.put, Shape.forget, Shape.mk.injEq, true_and]
  funext p
  by_cases hp : p = r
  · rw [if_pos hp, if_neg (hp ▸ h), if_pos hp]
  · rw [if_neg hp, if_neg hp]

/-- An operation that neither reads nor writes a register does not need to know it. -/
theorem Op.effect_forget {o : Op} (hr : q ∉ o.reads) (hw : q ∉ o.writes) (hdata : o.isData = true)
    (ho : o.effect env sh = some th) : o.effect env (sh.forget q) = some (th.forget q) := by
  have hne : ∀ {r : Reg} {l : List Reg}, q ∉ l → r ∈ l → r ≠ q := by
    rintro r l hl hmem rfl
    exact hl hmem
  have hfact : ∀ {r : Reg}, r ≠ q → sh.facts r ≠ .nothing → (sh.forget q).facts r ≠ .nothing := by
    intro r hr hf
    rwa [Shape.facts_forget hr]
  cases o with
  | push s k =>
    obtain ⟨hs, hlen, ht, hk, rfl⟩ := effect_push.1 ho
    exact effect_push.2 ⟨Src.ok_forget hr hs, hlen, ht, hk, rfl⟩
  | pop r =>
    obtain ⟨ks, hks, rfl⟩ := effect_pop.1 ho
    refine effect_pop.2 ⟨ks, hks, ?_⟩
    exact @Shape.put_forget { sh with words := ks } q r (hne hw List.mem_cons_self) _
  | move s r =>
    obtain ⟨hs, rfl⟩ := effect_move.1 ho
    refine effect_move.2 ⟨Src.ok_forget hr hs, ?_⟩
    rw [Src.fact_forget hr, Shape.put_forget (hne hw List.mem_cons_self)]
  | store r n =>
    obtain ⟨hf, hn, rfl⟩ := effect_store.1 ho
    exact effect_store.2 ⟨hfact (hne hr List.mem_cons_self) hf, hn, rfl⟩
  | peek r =>
    obtain ⟨k, ks, hks, hk, rfl⟩ := effect_peek.1 ho
    exact effect_peek.2 ⟨k, ks, hks, hk, Shape.put_forget (hne hw List.mem_cons_self) _⟩
  | combine f s r =>
    obtain ⟨hs, hf, htakes, rfl⟩ := effect_combine.1 ho
    have hrq : r ≠ q := hne hw List.mem_cons_self
    have hs' := Src.ok_forget (fun h => hr (List.mem_append_left _ h)) hs
    exact effect_combine.2 ⟨hs', hfact hrq hf, htakes, Shape.put_forget hrq _⟩
  | negate r =>
    obtain ⟨hf, rfl⟩ := effect_negate.1 ho
    have hrq : r ≠ q := hne hw List.mem_cons_self
    exact effect_negate.2 ⟨hfact hrq hf, Shape.put_forget hrq _⟩
  | extend =>
    obtain ⟨hf, rfl⟩ := effect_extend.1 ho
    refine effect_extend.2 ⟨hfact (hne hr List.mem_cons_self) hf, ?_⟩
    rw [Shape.put_forget (hne hw List.mem_cons_self)]
    rfl
  | divide r =>
    obtain ⟨hwide, hf, rfl⟩ := effect_divide.1 ho
    refine effect_divide.2 ⟨hwide, hfact (hne hr List.mem_cons_self) hf, ?_⟩
    rw [Shape.put_forget (hne hw List.mem_cons_self), Shape.put_forget (hne hw (by simp [Op.writes]))]
  | compare s r =>
    obtain ⟨hs, hf, rfl⟩ := effect_compare.1 ho
    have hs' := Src.ok_forget (fun h => hr (List.mem_append_left _ h)) hs
    exact effect_compare.2 ⟨hs', hfact (hne hr (by simp [Op.reads])) hf, rfl⟩
  | select c s r =>
    obtain ⟨hflags, hs, hf, rfl⟩ := effect_select.1 ho
    have hrq : r ≠ q := hne hw List.mem_cons_self
    exact effect_select.2 ⟨hflags, hfact (hne hr List.mem_cons_self) hs, hfact hrq hf, Shape.put_forget hrq _⟩
  | grow =>
    obtain ⟨hlen, rfl⟩ := effect_grow.1 ho
    exact effect_grow.2 ⟨hlen, rfl⟩
  | shrink n =>
    obtain ⟨hn, rfl⟩ := effect_shrink.1 ho
    exact effect_shrink.2 ⟨hn, rfl⟩
  | nop =>
    obtain rfl := effect_nop.1 ho
    exact effect_nop.2 rfl
  | _ => cases hdata

theorem Op.facts_of_not_mem_writes {o : Op} (hdata : o.isData = true) (hw : q ∉ o.writes)
    (ho : o.effect env sh = some th) : th.facts q = sh.facts q := by
  cases o with
  | push s k =>
    obtain ⟨-, -, -, -, rfl⟩ := effect_push.1 ho
    rfl
  | pop r =>
    obtain ⟨ks, -, rfl⟩ := effect_pop.1 ho
    exact if_neg (by simpa [Op.writes] using hw)
  | move s r =>
    obtain ⟨-, rfl⟩ := effect_move.1 ho
    exact if_neg (by simpa [Op.writes] using hw)
  | store r n =>
    obtain ⟨-, -, rfl⟩ := effect_store.1 ho
    rfl
  | peek r =>
    obtain ⟨-, -, -, -, rfl⟩ := effect_peek.1 ho
    exact if_neg (by simpa [Op.writes] using hw)
  | combine f s r =>
    obtain ⟨-, -, -, rfl⟩ := effect_combine.1 ho
    exact if_neg (by simpa [Op.writes] using hw)
  | negate r =>
    obtain ⟨-, rfl⟩ := effect_negate.1 ho
    exact if_neg (by simpa [Op.writes] using hw)
  | extend =>
    obtain ⟨-, rfl⟩ := effect_extend.1 ho
    exact if_neg (by simpa [Op.writes] using hw)
  | divide r =>
    obtain ⟨-, -, rfl⟩ := effect_divide.1 ho
    simp only [Op.writes, List.mem_cons, List.not_mem_nil, or_false, not_or] at hw
    exact (if_neg hw.2).trans (if_neg hw.1)
  | compare s r =>
    obtain ⟨-, -, rfl⟩ := effect_compare.1 ho
    rfl
  | select c s r =>
    obtain ⟨-, -, -, rfl⟩ := effect_select.1 ho
    exact if_neg (by simpa [Op.writes] using hw)
  | grow =>
    obtain ⟨-, rfl⟩ := effect_grow.1 ho
    rfl
  | shrink n =>
    obtain ⟨-, rfl⟩ := effect_shrink.1 ho
    rfl
  | nop => rw [effect_nop.1 ho]
  | _ => cases hdata

/-- Behind an operation that writes a register without reading it, it does not matter what was known. -/
theorem Op.effect_overwrite {o : Op} (hr : q ∉ o.reads) (hw : q ∈ o.writes)
    (ho : o.effect env sh = some th) : o.effect env (sh.forget q) = some th := by
  cases o with
  | pop r =>
    obtain rfl := List.mem_singleton.1 hw
    obtain ⟨ks, hks, rfl⟩ := effect_pop.1 ho
    exact effect_pop.2 ⟨ks, hks, @Shape.put_forget_self { sh with words := ks } q _⟩
  | move s r =>
    obtain rfl := List.mem_singleton.1 hw
    obtain ⟨hs, rfl⟩ := effect_move.1 ho
    refine effect_move.2 ⟨Src.ok_forget hr hs, ?_⟩
    rw [Src.fact_forget hr, Shape.put_forget_self]
  | peek r =>
    obtain rfl := List.mem_singleton.1 hw
    obtain ⟨k, ks, hks, hk, rfl⟩ := effect_peek.1 ho
    exact effect_peek.2 ⟨k, ks, hks, hk, Shape.put_forget_self _⟩
  | extend =>
    obtain rfl := List.mem_singleton.1 hw
    obtain ⟨hf, rfl⟩ := effect_extend.1 ho
    refine effect_extend.2 ⟨?_, by rw [Shape.put_forget_self]⟩
    rwa [Shape.facts_forget (by decide)]
  | combine f s r => exact absurd (List.mem_append_right _ hw) hr
  | negate r => exact absurd hw hr
  | divide r => exact absurd (List.mem_cons_of_mem _ hw) hr
  | select c s r => exact absurd (List.mem_cons_of_mem _ hw) hr
  | _ => cases hw

theorem Op.effect_forget_of_jump {o : Op} (hj : (∃ j l, o = .jump j l) ∨ o = .exit)
    (ho : o.effect env sh = some th) : o.effect env (sh.forget q) = some th := by
  rcases hj with ⟨j, l, rfl⟩ | rfl
  · exact ho
  · exact ho

theorem Check.forget_of_atEnd (hk : AtEnd k) (h : Check env sh k) : Check env (sh.forget q) k := by
  cases k with
  | nil => trivial
  | cons i k =>
    cases i with
    | op o => exact absurd hk (by simp [AtEnd])
    | label l ks => exact h

end Forget

theorem Op.eq_jump {o : Op} (h : o.opcode = .jmp ∨ o.opcode = .je ∨ o.opcode = .jne ∨ o.opcode = .jle) :
    (∃ j l, o = .jump j l) ∨ o = .exit := by
  cases o with
  | jump j l => exact .inl ⟨j, l, rfl⟩
  | exit => exact .inr rfl
  | combine f s r => cases f <;> simp [Op.opcode, Arith.opcode] at h
  | select c s r => cases c <;> simp [Op.opcode, Order.opcode] at h
  | _ => simp [Op.opcode] at h

/-- What takes a constant is a sum or a difference with another register. -/
theorem Instruction.Spells.takesConstant {i : Instruction} {o : Op} {q : Reg} (h : i.Spells exit o)
    (ht : takesConstant q.name i = true) : ∃ f r, o = .combine f (.reg q) r ∧ f ≠ .mul ∧ r ≠ q := by
  simp only [MicroC.takesConstant, Bool.and_eq_true, Bool.or_eq_true, beq_iff_eq, bne_iff_ne, h.opcode,
    h.operand] at ht
  obtain ⟨⟨hop, hsrc⟩, hdst⟩ := ht
  have himm : ∀ n : Int, immediateOperand n ≠ q.name := by
    intro n heq
    have := isRegister_immediateOperand n
    rw [heq, q.isRegister_name] at this
    cases this
  cases o with
  | combine f s r =>
    obtain rfl := Src.text_eq_name (s := s) (r := q) hsrc
    refine ⟨f, r, rfl, ?_, fun hr => hdst (hr ▸ rfl)⟩
    rintro rfl
    simp [Op.opcode, Arith.opcode] at hop
  | grow => exact absurd hsrc (himm _)
  | shrink n => exact absurd hsrc (himm _)
  | select c s r => cases c <;> simp [Op.opcode, Order.opcode] at hop
  | jump j l => cases j <;> simp [Op.opcode, Jump.opcode] at hop
  | _ => simp [Op.opcode] at hop

theorem Instruction.Spells.constantLoad? {i : Instruction} {o : Op} {register constant : String}
    (h : i.Spells exit o) (hc : constantLoad? i = some (register, constant)) :
    ∃ w q, o = .move (.imm w) q ∧ register = q.name ∧ constant = immediateOperand w.toInt := by
  obtain ⟨hop, rfl, rfl, -, v, hv, -⟩ := constantLoad?_spec hc
  rw [h.operand] at hv
  rcases Op.eq_move (h.opcode ▸ hop) with ⟨s, r, rfl⟩ | ⟨r, n, rfl⟩ | ⟨r, rfl⟩
  · cases s with
    | imm w => exact ⟨w, r, rfl, h.operand 1, h.operand 0⟩
    | reg p => cases hv.symm.trans (Src.immediate?_text (.reg p))
    | slot n => cases hv.symm.trans (Src.immediate?_text (.slot n))
    | param n => cases hv.symm.trans (Src.immediate?_text (.param n))
  · cases hv.symm.trans r.immediate?_name
  · cases hv.symm.trans (show immediate? "(%rsp)" = none by decide)

/-- What became of the operations behind the load of a constant `w` into a register `q`. -/
structure Folds (env : Setting) (q : Reg) (w : Int64) (u : Uses) (os os' : List Op) : Prop where
  rewrite : ∀ sh k, sh.facts q = .const w → Check env sh (items os ++ k) →
    Rewrite env none sh (items os ++ k) (items os' ++ k)
  /-- Where the register is dead, nothing needs to be known of it. -/
  dead : u.dead = true → u.used = false → ∀ sh k, AtEnd k → Check env sh (items os' ++ k) →
    Check env (sh.forget q) (items os' ++ k)
  /-- Only scratch registers are the source of a sum or a difference. -/
  scratch : 0 < u.folded → ∀ sh k, Check env sh (items os ++ k) → q.isScratch = true

theorem Folds.stop {q : Reg} {w : Int64} {u : Uses} (hf : u.folded = 0)
    (hd : u.dead = true → u.used = false → ∀ sh k, AtEnd k → Check env sh (items os ++ k) →
      Check env (sh.forget q) (items os ++ k)) : Folds env q w u os os where
  rewrite _ _ _ h := .refl h
  dead := hd
  scratch h := absurd h (by omega)

/-- An instruction that the search for uses passes. -/
theorem Folds.pass {q : Reg} {w : Int64} {u : Uses} {o : Op} {os' : List Op} (code : List Instruction)
    (used : Bool) (hdata : o.isData = true) (hw : q ∉ o.writes) (hr : used = false → q ∉ o.reads)
    (h : Folds env q w u os os') :
    Folds env q w { u with code := code, used := used || u.used } (o :: os) (o :: os') where
  rewrite sh k hq hc := by
    obtain ⟨th, hth, hc⟩ := hc
    exact .op hth (h.rewrite th k ((Op.facts_of_not_mem_writes hdata hw hth).trans hq) hc)
  dead hd hu sh k hk hc := by
    obtain ⟨th, hth, hc⟩ := hc
    rw [Bool.or_eq_false_iff] at hu
    exact ⟨_, Op.effect_forget (hr hu.1) hw hdata hth, h.dead hd hu.2 th k hk hc⟩
  scratch hf sh k hc := by
    obtain ⟨th, -, hc⟩ := hc
    exact h.scratch hf th k hc

/-- A sum or a difference that takes the constant itself instead of the register. -/
theorem Folds.take {q r : Reg} {w : Int64} {u : Uses} {f : Arith} {os' : List Op} (code : List Instruction)
    (hmul : f ≠ .mul) (hne : r ≠ q) (h : Folds env q w u os os') :
    Folds env q w { u with code := code, folded := u.folded + 1 } (.combine f (.reg q) r :: os)
      (.combine f (.imm w) r :: os') where
  rewrite sh k hq hc := by
    obtain ⟨th, hth, hc⟩ := hc
    have hw : q ∉ (Op.combine f (.reg q) r).writes := by simpa [Op.writes] using hne.symm
    exact .fold hq hth (h.rewrite th k ((Op.facts_of_not_mem_writes rfl hw hth).trans hq) hc)
  dead hd hu sh k hk hc := by
    obtain ⟨th, hth, hc⟩ := hc
    have hr : q ∉ (Op.combine f (.imm w) r).reads := by simpa [Op.reads, Src.reads] using hne.symm
    have hw : q ∉ (Op.combine f (.imm w) r).writes := by simpa [Op.writes] using hne.symm
    exact ⟨_, Op.effect_forget hr hw rfl hth, h.dead hd hu th k hk hc⟩
  scratch _ sh k hc := by
    obtain ⟨th, hth, -⟩ := hc
    obtain ⟨-, -, htakes, -⟩ := Op.effect_combine.1 hth
    cases f with
    | mul => exact absurd rfl hmul
    | add | sub => exact htakes

theorem Folds.jump {q : Reg} {w : Int64} {u : Uses} {o : Op} (hu : u.folded = 0)
    (hj : (∃ j l, o = .jump j l) ∨ o = .exit) : Folds env q w u (o :: os) (o :: os) := by
  refine .stop hu fun _ _ sh k _ hc => ?_
  obtain ⟨th, hth, hc⟩ := hc
  exact ⟨th, Op.effect_forget_of_jump hj hth, hc⟩

/-- What is neither a jump nor a call is an operation on data. -/
theorem Op.isData_of_opcode {o : Op} (hcall : o.opcode ≠ .call) (hjmp : o.opcode ≠ .jmp) (hjne : o.opcode ≠ .jne)
    (hjle : o.opcode ≠ .jle) : o.isData = true := by
  cases o with
  | jump j l =>
    cases j with
    | always => exact absurd rfl hjmp
    | unequal => exact absurd rfl hjne
    | atMost => exact absurd rfl hjle
  | exit => exact absurd rfl hjmp
  | call f => exact absurd rfl hcall
  | _ => rfl

theorem foldUses_spec {q : Reg} {w : Int64} {code : List Instruction}
    (h : Forall₂ (Instruction.Spells exit) code os) :
    ∃ os', Forall₂ (Instruction.Spells exit) (foldUses q.name (immediateOperand w.toInt) code).code os' ∧
      Folds env q w (foldUses q.name (immediateOperand w.toInt) code) os os' := by
  induction h with
  | nil => exact ⟨[], .nil, .stop rfl fun _ _ sh k hk hc => Check.forget_of_atEnd hk hc⟩
  | @cons i o code os hi hos ih =>
    obtain ⟨os', hos', hf⟩ := ih
    rw [foldUses]
    by_cases hnop : i.isNop = true
    · obtain rfl := hi.isNop.1 hnop
      rw [if_pos hnop]
      exact ⟨.nop :: os', .cons hi hos', hf.pass _ false rfl (by rintro ⟨⟩) (by rintro - ⟨⟩)⟩
    rw [if_neg hnop]
    by_cases ht : takesConstant q.name i = true
    · obtain ⟨f, r, rfl, hmul, hne⟩ := hi.takesConstant ht
      rw [if_pos ht]
      exact ⟨.combine f (.imm w) r :: os', .cons ⟨hi.opcode, by rw [hi.operands]; rfl⟩ hos', hf.take _ hmul hne⟩
    rw [if_neg ht]
    dsimp only
    split
    · exact ⟨o :: os, .cons hi hos, .stop rfl (by rintro ⟨⟩)⟩
    · next hop => exact absurd (hi.opcode.symm.trans hop) o.opcode_ne_retq
    · next hop => exact ⟨o :: os, .cons hi hos, .jump rfl (Op.eq_jump (.inl (hi.opcode.symm.trans hop)))⟩
    · next hop => exact ⟨o :: os, .cons hi hos, .jump rfl (Op.eq_jump (.inr (.inl (hi.opcode.symm.trans hop))))⟩
    · next hop =>
      exact ⟨o :: os, .cons hi hos, .jump rfl (Op.eq_jump (.inr (.inr (.inl (hi.opcode.symm.trans hop)))))⟩
    · next hop =>
      exact ⟨o :: os, .cons hi hos, .jump rfl (Op.eq_jump (.inr (.inr (.inr (hi.opcode.symm.trans hop)))))⟩
    · next hcall hret hjmp hje hjne hjle =>
      have hdata := Op.isData_of_opcode (hi.opcode ▸ hcall) (hi.opcode ▸ hjmp) (hi.opcode ▸ hjne) (hi.opcode ▸ hjle)
      have hreads : (i.reads.contains q.name) = false → q ∉ o.reads := by
        intro hr hmem
        rw [List.contains_eq_mem, decide_eq_false_iff_not] at hr
        exact hr ((hi.mem_reads hdata).2 hmem)
      by_cases hw : i.writes.contains q.name = true
      · rw [if_pos hw]
        refine ⟨o :: os, .cons hi hos, .stop rfl fun _ hu sh k _ hc => ?_⟩
        obtain ⟨th, hth, hc⟩ := hc
        have hmem : q ∈ o.writes := (hi.mem_writes hdata).1 (by simpa using hw)
        exact ⟨th, Op.effect_overwrite (hreads hu) hmem hth, hc⟩
      · rw [if_neg hw]
        have hmem : q ∉ o.writes := fun hmem => hw (by simpa using (hi.mem_writes hdata).2 hmem)
        exact ⟨o :: os', .cons hi hos', hf.pass _ _ hdata hmem hreads⟩

/-- A load is left out behind which its register is dead. -/
theorem Rewrite.unload_of_folds {q : Reg} {w : Int64} {u : Uses} {os' : List Op} (h : Folds env q w u os os')
    (hdrop : (0 < u.folded && u.dead && !u.used) = true) (hk : AtEnd k)
    (hold : Check env (sh.put q (.const w)) (items os ++ k))
    (hnew : Check env (sh.put q (.const w)) (items os' ++ k)) :
    Rewrite env none sh (.op (.move (.imm w) q) :: (items os' ++ k)) (.op .nop :: (items os' ++ k)) := by
  simp only [Bool.and_eq_true, decide_eq_true_eq, Bool.not_eq_eq_eq_not, Bool.not_true] at hdrop
  obtain ⟨⟨hfold, hdead⟩, hused⟩ := hdrop
  have hforget : (sh.put q (.const w)).forget q = sh.put q .nothing := by
    simp only [Shape.put, Shape.forget, Shape.mk.injEq, true_and]
    funext r
    by_cases hr : r = q
    · rw [if_pos hr, if_pos hr]
    · rw [if_neg hr, if_neg hr, if_neg hr]
  have hc := h.dead hdead hused _ k hk hnew
  rw [hforget] at hc
  exact .unload (h.scratch hfold _ k hold) (.refl hc)

theorem reduces_foldConstants : Reduces env exit fun code => (foldConstants code).code := by
  intro code os h
  change ∃ os', Forall₂ (Instruction.Spells exit) (foldConstants code).code os' ∧ _
  fun_induction foldConstants code generalizing os with
  | case1 =>
    cases h
    exact ⟨[], .nil, fun sh k _ _ => .refl _⟩
  | case2 i rest _ r ih =>
    cases h with
    | @cons _ o _ os hi hos =>
    obtain ⟨os', hos', hr⟩ := ih os hos
    refine ⟨o :: os', .cons hi hos', fun sh k hk hc => ?_⟩
    obtain ⟨th, hth, hc⟩ := hc
    exact .op hth (hr th k hk hc)
  | case3 i rest register constant hload u r ih =>
    cases h with
    | @cons _ o _ os hi hos =>
    obtain ⟨w, q, rfl, rfl, rfl⟩ := hi.constantLoad? hload
    obtain ⟨os₁, hos₁, hf⟩ := @foldUses_spec env _ _ q w _ hos
    obtain ⟨os₂, hos₂, hr⟩ := ih os₁ hos₁
    -- First the constant goes into its uses; then the load goes, if it can; then the rest is reduced.
    have hfirst : ∀ sh k, Check env sh (items (.move (.imm w) q :: os) ++ k) →
        Rewrite env none sh (items (.move (.imm w) q :: os) ++ k) (items (.move (.imm w) q :: os₁) ++ k) := by
      intro sh k hc
      obtain ⟨th, hth, hc⟩ := hc
      obtain ⟨-, rfl⟩ := Op.effect_move.1 hth
      exact .op hth (hf.rewrite _ k (if_pos rfl) hc)
    by_cases hdrop : (0 < u.folded && u.dead && !u.used) = true
    · rw [if_pos hdrop]
      refine ⟨.nop :: os₂, .cons spells_nop hos₂, fun sh k hk hc => ?_⟩
      have hstep := hfirst sh k hc
      obtain ⟨th, hth, hold⟩ := hc
      obtain ⟨-, rfl⟩ := Op.effect_move.1 hth
      obtain ⟨th', hth', hnew⟩ := hstep.check
      obtain ⟨-, rfl⟩ := Op.effect_move.1 hth'
      have hdropped := Rewrite.unload_of_folds hf hdrop hk hold hnew
      obtain ⟨th, hth, hc⟩ := hdropped.check
      exact .step hstep (.step hdropped (.op hth (hr th k hk hc)))
    · rw [if_neg hdrop]
      refine ⟨.move (.imm w) q :: os₂, .cons hi hos₂, fun sh k hk hc => ?_⟩
      have hstep := hfirst sh k hc
      obtain ⟨th, hth, hnew⟩ := hstep.check
      exact .step hstep (.op hth (hr th k hk hnew))

/-! ## Rounds -/

theorem reduces_reduceIf {allowed : Bool} {reduce : List Instruction → Reduced}
    (h : Reduces env exit fun code => (reduce code).code) :
    Reduces env exit fun code => (reduceIf allowed reduce code).code := by
  cases allowed with
  | true => exact h
  | false => exact fun code os hos => ⟨os, hos, fun sh k _ _ => .refl _⟩

/-- **A round of reductions is a chain of rewrites.** -/
theorem reduces_reduceRound (rs : Reductions) : Reduces env exit fun code => (reduceRound rs code).1 :=
  (reduces_reduceIf reduces_removeSelfMoves).comp <| (reduces_reduceIf reduces_foldConstants).comp <|
    (reduces_reduceIf reduces_combinePushPop).comp (reduces_reduceIf reduces_removeNops)

end MicroC
