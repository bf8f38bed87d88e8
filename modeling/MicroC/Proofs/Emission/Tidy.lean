import MicroC.Proofs.Emission.Order

/-!
# The code of functions is in order

Between two statements the words of a frame are variables and at most one word of padding, and there is an
even number of them. A statement leads from such a place to one with more variables; where a block ends a
variable may stand in the place of padding.

* `Spot.Tidy`, `Spot.Extends`: such places, and how they grow.
* `StmtCode.check`: the code of a statement is in order.
* **`RoutineCode.check`**: the code of a function is in order.
-/

namespace MicroC

open Convention

variable {env : Setting} {k : List Item} {ks : List Kind}

/-! ## Places -/

/-- A place between two statements: aligned, with variables and at most one word of padding. -/
structure Spot.Tidy (env : Setting) (p : Spot) : Prop where
  filled : p.Filled
  padding : p.padded = true → p.words = .pad :: p.base
  even : p.words.length % 2 = 0
  vars : ∀ k ∈ p.base, k = .var ∨ k = .pad ∧ env.strict = false

/-- Behind some statements there are more variables. -/
def Spot.Extends (p q : Spot) : Prop :=
  q = p ∨ ∃ js κ, q.base = js ++ κ :: p.base ∧ κ ≠ .temp

namespace Spot

variable {p q r : Spot}

theorem Tidy.words_eq (h : p.Tidy env) : p.words = List.replicate p.padded.toNat .pad ++ p.base := by
  cases hp : p.padded with
  | true => exact h.padding hp
  | false =>
    rw [Spot.base, hp]
    rfl

theorem isVariable_of_mem {ks : List Kind} (h : ∀ k ∈ ks, k = .var ∨ k = .pad ∧ env.strict = false)
    {m : Nat} (hm : m < ks.length) : Src.isVariable env ks m = true := by
  have hsome : ∃ k, under ks m = some k := by
    cases hu : under ks m with
    | some k => exact ⟨k, rfl⟩
    | none =>
      have := under_eq_none.1 hu
      omega
  obtain ⟨k, hk⟩ := hsome
  have hmem : k ∈ ks := by
    unfold under at hk
    exact List.mem_reverse.1 (List.mem_of_getElem? hk)
  rw [Src.isVariable, hk]
  rcases h k hmem with rfl | ⟨rfl, hstrict⟩
  · rfl
  · simp [hstrict]

theorem Tidy.usable_base (h : p.Tidy env) : Usable env p.slots p.base := by
  intro m hm
  refine isVariable_of_mem h.vars ?_
  rw [h.filled.length_base]
  exact hm

theorem Tidy.usable (h : p.Tidy env) : Usable env p.slots p.words := by
  rw [h.words_eq]
  exact h.usable_base.append _

/-- Among initialised variables there is no padding. -/
theorem pads_of_vars {ks : List Kind} (h : ∀ k ∈ ks, k = .var ∨ k = .pad ∧ env.strict = false)
    (hs : env.strict = true) : pads ks = 0 := by
  cases ks with
  | nil => rfl
  | cons k ks =>
    rcases h k List.mem_cons_self with rfl | ⟨-, hf⟩
    · rfl
    · rw [hs] at hf
      cases hf

theorem Tidy.pads_le (h : p.Tidy env) (hs : env.strict = true) : pads p.words ≤ 1 := by
  rw [h.words_eq, pads_replicate, pads_of_vars h.vars hs]
  cases p.padded <;> simp

theorem Tidy.length_words_le (h : p.Tidy env) : p.words.length ≤ p.base.length + 1 := by
  rw [h.words_eq, List.length_append, List.length_replicate]
  have : p.padded.toNat ≤ 1 := Bool.toNat_le _
  omega

theorem Tidy.length_base_le (h : p.Tidy env) : p.base.length ≤ p.words.length := by
  rw [h.words_eq, List.length_append]
  omega

theorem Extends.refl (p : Spot) : p.Extends p := .inl rfl

theorem Extends.trans (h : p.Extends q) (h' : q.Extends r) : p.Extends r := by
  rcases h' with rfl | ⟨js, κ, hr, hκ⟩
  · exact h
  · rcases h with rfl | ⟨is, ι, hq, hι⟩
    · exact .inr ⟨js, κ, hr, hκ⟩
    · refine .inr ⟨js ++ κ :: is, ι, ?_, hι⟩
      rw [hr, hq]
      simp

/-- What is left of the words when a block ends may be taken for what there was. -/
theorem Extends.drop (h : p.Extends q) (hp : p.Tidy env) (hq : q.Tidy env) :
    p.words.length ≤ q.words.length ∧
      kindsLe p.words (q.words.drop (q.words.length - p.words.length)) = true := by
  rcases h with rfl | ⟨js, κ, hbase, hκ⟩
  · rw [Nat.sub_self]
    exact ⟨Nat.le_refl _, kindsLe_refl _⟩
  · have hqw : ∃ pre, q.words = pre ++ κ :: p.base := by
      refine ⟨List.replicate q.padded.toNat .pad ++ js, ?_⟩
      rw [hq.words_eq, hbase, List.append_assoc]
    obtain ⟨pre, hpre⟩ := hqw
    have hlen : q.words.length = pre.length + (p.base.length + 1) := by
      rw [hpre, List.length_append, List.length_cons]
    have hle := hp.length_words_le
    refine ⟨by omega, ?_⟩
    cases hpad : p.padded with
    | true =>
      rw [hp.padding hpad, List.length_cons, hlen, Nat.add_sub_cancel, hpre, List.drop_left]
      refine kindsLe_cons.2 ⟨?_, kindsLe_refl _⟩
      cases κ with
      | temp => exact absurd rfl hκ
      | var => rfl
      | pad => rfl
    | false =>
      have hwords : p.words = p.base := by
        have := hp.words_eq
        rwa [hpad] at this
      rw [hwords, hlen, Nat.add_comm p.base.length 1, ← Nat.add_assoc, Nat.add_sub_cancel, hpre,
        List.append_cons, List.drop_left' (by simp)]
      exact kindsLe_refl _

theorem check_release (h : p.Extends q) (hp : p.Tidy env) (hq : q.Tidy env)
    (hk : Check env (.fresh p.words) k) : Check env (.fresh q.words) (p.release q ++ k) := by
  obtain ⟨hle, hdrop⟩ := h.drop hp hq
  refine check_shrinkItems (Nat.sub_le _ _) (Shape.warm_fresh _) ?_
  exact hk.mono (.fresh hdrop)

/-- A place with one more variable, aligned again. -/
theorem Tidy.declare (hp : p.Tidy env) (d : NodeId) {κ : Kind}
    (hκ : κ = .var ∨ κ = .pad ∧ env.strict = false) (hq : q = p.declare d (κ :: p.base)) :
    q.align.Tidy env ∧ p.Extends q.align ∧ q.align.words.length ≤ p.base.length + 1 + width q.alignItems ∧
      ∀ k, p.base.length + 1 + width q.alignItems ≤ wordLimit → Check env (.fresh q.align.words) k →
        Check env (.fresh (κ :: p.base)) (q.alignItems ++ k) := by
  have hfilled : q.Filled := hq ▸ filled_declare hp.filled d κ
  have hpadded : q.padded = false := by rw [hq]; rfl
  have hwords : q.words = κ :: p.base := by rw [hq]; rfl
  have hbase : q.align.base = κ :: p.base := by
    unfold Spot.align
    split
    · rw [Spot.base, hpadded, ← hwords]
      rfl
    · exact hwords
  have hvars : ∀ k ∈ q.align.base, k = .var ∨ k = .pad ∧ env.strict = false := by
    rw [hbase]
    intro k hk
    rcases List.mem_cons.1 hk with rfl | hk
    · exact hκ
    · exact hp.vars k hk
  have hne : κ ≠ .temp := by
    rcases hκ with rfl | ⟨rfl, -⟩ <;> decide
  have hext : p.Extends q.align := .inr ⟨[], κ, hbase, hne⟩
  by_cases ha : q.isAligned = true
  · have halign : q.align = q := if_pos ha
    have hitems : q.alignItems = [] := if_pos ha
    have heven : q.words.length % 2 = 0 := by simpa [Spot.isAligned] using ha
    rw [halign] at hvars hext ⊢
    rw [hitems]
    refine ⟨⟨hfilled, fun h => ?_, heven, hvars⟩, hext, ?_, fun k _ hk => ?_⟩
    · rw [hpadded] at h
      cases h
    · rw [hwords]
      exact Nat.le_refl _
    · rwa [hwords] at hk
  · have halign : q.align = { q with padded := true, words := .pad :: q.words } := if_neg ha
    have hitems : q.alignItems = [.op .grow] := if_neg ha
    have hodd : q.words.length % 2 = 1 := by
      have : ¬ q.words.length % 2 = 0 := by simpa [Spot.isAligned] using ha
      omega
    have hawords : q.align.words = .pad :: κ :: p.base := by rw [halign, hwords]
    rw [hitems]
    refine ⟨⟨filled_align hfilled hpadded, fun _ => ?_, ?_, hvars⟩, hext, ?_, fun k hroom hk => ?_⟩
    · rw [hbase, hawords]
    · rw [halign, List.length_cons]
      omega
    · rw [hawords]
      exact Nat.le_refl _
    · rw [hawords] at hk
      refine .op (Op.effect_grow.2 ⟨?_, rfl⟩) hk
      exact Nat.lt_of_lt_of_le (Nat.lt_succ_self _) hroom

end Spot

theorem check_branchItems {target : String} (hl : (target, ks) ∈ env.labels)
    (hk : Check env (.fresh ks) k) : Check env (.fresh (.temp :: ks)) (branchItems target ++ k) := by
  refine .op (Op.effect_pop.2 ⟨_, rfl, rfl⟩) (.op (Op.effect_compare.2 ⟨rfl, ?_, rfl⟩)
    (.op (Op.effect_jump.2 ⟨.inr rfl, ⟨ks, hl, kindsLe_refl _⟩, rfl⟩) hk))
  simp [Shape.put]

/-! ## Statements -/

/-- What is asked of the statements of a routine. -/
structure Fitting (env : Setting) (initialised : Bool) (depth : Nat) : Prop where
  strict : env.strict = true → initialised = true
  thin : env.thin = true → env.strict = true ∧ depth < slack

section Statements

variable {c : Meaning}

theorem Spot.Tidy.spacious {p : Spot} {b : Bool} {i d d' : Nat} (hp : p.Tidy env) (hf : Fitting env b d)
    (hd : d' ≤ d) (hroom : p.words.length + i ≤ wordLimit) : Spacious env p.words i d' := by
  refine ⟨hroom, fun ht => ?_⟩
  obtain ⟨hs, hlt⟩ := hf.thin ht
  have := hp.pads_le hs
  omega

/-- There is room for an initial value, which takes the place of padding. -/
theorem Spot.Tidy.spacious_base {p : Spot} {b : Bool} {i d d' : Nat} (hp : p.Tidy env)
    (hf : Fitting env b d) (hd : d' ≤ d) (hroom : p.words.length + i ≤ wordLimit) :
    Spacious env p.base i d' := by
  refine ⟨Nat.le_trans (Nat.add_le_add_right hp.length_base_le _) hroom, fun ht => ?_⟩
  obtain ⟨hs, hlt⟩ := hf.thin ht
  rw [pads_of_vars hp.vars hs]
  omega

theorem Fitting.mono {b b' : Bool} {d d' : Nat} (h : Fitting env b d) (hb : b = true → b' = true)
    (hd : d' ≤ d) : Fitting env b' d' :=
  ⟨fun hs => hb (h.strict hs), fun ht => ⟨(h.thin ht).1, Nat.lt_of_le_of_lt hd (h.thin ht).2⟩⟩

/-- A condition, the jump that it decides and a branch are in order in front of what is. -/
theorem ExprCode.check_branch (harity : env.arityOf = c.arityOf) {p q : Spot} {n n' : Nat} {e : Expr}
    {is js k : List Item} {target : String} (he : ExprCode c p.slots p.words n .temp e is n') (hp : p.Tidy env)
    (hl : ∀ x ∈ labels is, x ∈ env.labels) (hs : Spacious env p.words (width is) e.callDepth)
    (htarget : (target, p.words) ∈ env.labels) (hq : q.Tidy env) (hext : p.Extends q)
    (hcheck : ∀ k, Check env (.fresh q.words) k → Check env (.fresh p.words) (js ++ k))
    (hk : Check env (.fresh p.words) k) (name : String) :
    Check env (.fresh p.words) (is ++ (branchItems target ++ .label name p.words :: (js ++ (p.release q ++ k)))) :=
  he.check harity hp.usable hl hs (by decide)
    (check_branchItems htarget ⟨kindsLe_refl _, hcheck _ (Spot.check_release hext hp hq hk)⟩)

mutual

/-- **The code of a statement is in order.** -/
theorem StmtCode.check (harity : env.arityOf = c.arityOf) {p q : Spot} {n n' : Nat} {s : Stmt}
    {is : List Item} (h : StmtCode c p n s is q n') (hp : p.Tidy env)
    (hf : Fitting env s.initialised s.callDepth) (hroom : p.words.length + width is ≤ wordLimit)
    (hl : ∀ x ∈ labels is, x ∈ env.labels) :
    q.Tidy env ∧ p.Extends q ∧ q.words.length ≤ p.words.length + width is ∧
      ∀ k, Check env (.fresh q.words) k → Check env (.fresh p.words) (is ++ k) := by
  match h with
  | .empty => exact ⟨hp, .refl p, Nat.le_refl _, fun k hk => hk⟩
  | @StmtCode.ifThen _ _ q n n₁ n' s e t is js he ht =>
    simp only [labels_append, labels, List.mem_append, List.mem_cons, branchItems] at hl
    simp only [width_append, width_label] at hroom ⊢
    refine ⟨hp, .refl p, Nat.le_add_right _ _, fun k hk => ?_⟩
    obtain ⟨hq, hext, -, hcheck⟩ := ht.check harity hp (hf.mono id (Nat.le_max_right _ _)) (by omega)
      fun x hx => hl x (by simp [hx])
    simp only [List.append_assoc, List.cons_append]
    refine he.check_branch harity hp (fun x hx => hl x (by simp [hx]))
      (hp.spacious hf (Nat.le_max_left _ _) (by omega)) (hl _ (by simp)) hq hext hcheck ?_ _
    exact ⟨kindsLe_refl _, hk⟩
  | @StmtCode.ifElse _ _ q r n n₁ n₂ n' s e t u is js ls he ht hu =>
    simp only [labels_append, labels, List.mem_append, List.mem_cons, branchItems] at hl
    simp only [width_append, width_label, width_op] at hroom ⊢
    refine ⟨hp, .refl p, Nat.le_add_right _ _, fun k hk => ?_⟩
    have hinit : (Stmt.ite s e t (some u)).initialised = true → t.initialised = true ∧ u.initialised = true := by
      simp [Stmt.initialised]
    have hdepth : (Stmt.ite s e t (some u)).callDepth = max e.callDepth (max t.callDepth u.callDepth) := by
      rw [Stmt.callDepth]
    obtain ⟨hq, hext, -, hcheck⟩ := ht.check harity hp (hf.mono (fun h => (hinit h).1) (by omega)) (by omega)
      fun x hx => hl x (by simp [hx])
    obtain ⟨hr, hext', -, hcheck'⟩ := hu.check harity hp (hf.mono (fun h => (hinit h).2) (by omega))
      (by omega) fun x hx => hl x (by simp [hx])
    have hend : (labelName (n₁ + 2) "endif", p.words) ∈ env.labels := hl _ (by simp)
    simp only [List.append_assoc, List.cons_append]
    refine he.check_branch harity hp (fun x hx => hl x (by simp [hx])) (hp.spacious hf (by omega) (by omega))
      (hl _ (by simp)) hq hext hcheck ?_ _
    refine .op (Op.effect_jump.2 ⟨.inl rfl, ⟨_, hend, kindsLe_refl _⟩, rfl⟩) ⟨kindsLe_refl _, ?_⟩
    exact hcheck' _ (Spot.check_release hext' hp hr ⟨kindsLe_refl _, hk⟩)
  | @StmtCode.loop _ _ q n n₁ n' s e b is js he hb =>
    simp only [labels_append, labels, List.mem_append, List.mem_cons, branchItems] at hl
    simp only [width_append, width_label, width_op] at hroom ⊢
    refine ⟨hp, .refl p, Nat.le_add_right _ _, fun k hk => ?_⟩
    obtain ⟨hq, hext, -, hcheck⟩ := hb.check harity hp (hf.mono id (Nat.le_max_right _ _)) (by omega)
      fun x hx => hl x (by simp [hx])
    have hcond : (labelName n "while_cond", p.words) ∈ env.labels := hl _ (by simp)
    simp only [List.append_assoc, List.cons_append]
    refine ⟨kindsLe_refl _, he.check_branch harity hp (fun x hx => hl x (by simp [hx]))
      (hp.spacious hf (Nat.le_max_left _ _) (by omega)) (hl _ (by simp)) hq hext hcheck ?_ _⟩
    exact .op (Op.effect_jump.2 ⟨.inl rfl, ⟨_, hcond, kindsLe_refl _⟩, rfl⟩) ⟨kindsLe_refl _, hk⟩
  | .leave =>
    exact ⟨hp, .refl p, Nat.le_add_right _ _, fun k hk => .op (Op.effect_exit.2 rfl) hk⟩
  | .ret he =>
    rw [labels_append] at hl
    rw [width_append] at hroom
    refine ⟨hp, .refl p, Nat.le_add_right _ _, fun k hk => ?_⟩
    rw [List.append_assoc]
    exact he.check harity hp.usable (fun x hx => hl x (List.mem_append_left _ hx))
      (hp.spacious hf (Nat.le_refl _) (by omega)) (by decide)
      (.op (Op.effect_pop.2 ⟨_, rfl, rfl⟩) (.op (Op.effect_exit.2 rfl) hk))
  | .expr he =>
    rw [labels_append] at hl
    rw [width_append] at hroom
    refine ⟨hp, .refl p, Nat.le_add_right _ _, fun k hk => ?_⟩
    rw [List.append_assoc]
    exact he.check harity hp.usable (fun x hx => hl x (List.mem_append_left _ hx))
      (hp.spacious hf (Nat.le_refl _) (by omega)) (by decide)
      (.op (Op.effect_pop.2 ⟨_, rfl, rfl⟩) (hk.ofFresh ((Shape.warm_fresh _).value .rax) (kindsLe_refl _)))
  | @StmtCode.init _ _ q n n' b e is he hq =>
    rw [labels_append, labels_append] at hl
    rw [width_append, width_append] at hroom ⊢
    obtain ⟨htidy, hext, hlen, hcheck⟩ := hp.declare b.site.id (.inl rfl) hq
    have hpos := he.width_pos
    have hbase := hp.length_base_le
    refine ⟨htidy, hext, by omega, fun k hk => ?_⟩
    rw [List.append_assoc, List.append_assoc]
    refine check_shrinkItems ?_ (Shape.warm_fresh _) ?_
    · show p.padded.toNat ≤ p.words.length
      rw [hp.words_eq, List.length_append, List.length_replicate]
      omega
    · have hdrop : (Shape.fresh p.words).words.drop p.padded.toNat = p.base := by
        show p.words.drop p.padded.toNat = p.base
        rw [hp.words_eq]
        exact List.drop_left' (by simp)
      rw [hdrop]
      exact he.check harity hp.usable_base
        (fun x hx => hl x (List.mem_append_right _ (List.mem_append_left _ hx)))
        (hp.spacious_base hf (Nat.le_refl _) (by omega)) (by decide) (hcheck k (by omega) hk)
  | @StmtCode.bare _ _ q n b hq =>
    rw [width_append, width_growItems] at hroom ⊢
    have hstrict : env.strict = false := by
      cases hs : env.strict with
      | false => rfl
      | true => exact absurd (hf.strict hs) (by simp [Stmt.initialised])
    obtain ⟨htidy, hext, hlen, hcheck⟩ := hp.declare b.site.id (.inr ⟨rfl, hstrict⟩) hq
    have hwords := congrArg List.length hp.words_eq
    rw [List.length_append, List.length_replicate] at hwords
    have hle : p.padded.toNat ≤ 1 := Bool.toNat_le _
    refine ⟨htidy, hext, by omega, fun k hk => ?_⟩
    rw [List.append_assoc]
    refine check_growItems (by omega) ?_
    have hgrown : List.replicate (1 - p.padded.toNat) .pad ++ p.words = .pad :: p.base := by
      cases hpad : p.padded with
      | true => exact hp.padding hpad
      | false =>
        rw [hp.words_eq, hpad]
        rfl
    rw [hgrown]
    exact hcheck k (by omega) hk
  | @StmtCode.block _ _ q n n' s body is hs =>
    rw [labels_append] at hl
    rw [width_append] at hroom ⊢
    obtain ⟨hq, hext, -, hcheck⟩ := hs.check harity hp hf (by omega)
      fun x hx => hl x (List.mem_append_left _ hx)
    refine ⟨hp, .refl p, Nat.le_add_right _ _, fun k hk => ?_⟩
    rw [List.append_assoc]
    exact hcheck _ (Spot.check_release hext hp hq hk)

theorem StmtsCode.check (harity : env.arityOf = c.arityOf) {p q : Spot} {n n' : Nat} {ss : List Stmt}
    {is : List Item} (h : StmtsCode c p n ss is q n') (hp : p.Tidy env)
    (hf : Fitting env (Stmt.initialisedAll ss) (Stmt.callDepthAll ss))
    (hroom : p.words.length + width is ≤ wordLimit) (hl : ∀ x ∈ labels is, x ∈ env.labels) :
    q.Tidy env ∧ p.Extends q ∧ q.words.length ≤ p.words.length + width is ∧
      ∀ k, Check env (.fresh q.words) k → Check env (.fresh p.words) (is ++ k) := by
  match h with
  | .nil => exact ⟨hp, .refl p, Nat.le_refl _, fun k hk => hk⟩
  | @StmtsCode.cons _ _ q r n n₁ n₂ s ss is js hs hss =>
    rw [labels_append] at hl
    rw [width_append] at hroom ⊢
    have hinit : Stmt.initialisedAll (s :: ss) = true → s.initialised = true ∧ Stmt.initialisedAll ss = true := by
      simp [Stmt.initialisedAll]
    obtain ⟨hq, hext, hlen, hcheck⟩ := hs.check harity hp
      (hf.mono (fun h => (hinit h).1) (Nat.le_max_left _ _)) (by omega)
      fun x hx => hl x (List.mem_append_left _ hx)
    obtain ⟨hr, hext', hlen', hcheck'⟩ := hss.check harity hq
      (hf.mono (fun h => (hinit h).2) (Nat.le_max_right _ _)) (by omega)
      fun x hx => hl x (List.mem_append_right _ hx)
    refine ⟨hr, hext.trans hext', by omega, fun k hk => ?_⟩
    rw [List.append_assoc]
    exact hcheck _ (hcheck' k hk)

end

end Statements

/-! ## Functions -/

theorem paramSrc_ok {i : Nat} (hi : i < env.arity) : (paramSrc i).ok env (.fresh ks) = true := by
  unfold paramSrc
  cases hr : Reg.arguments[i]? with
  | some r =>
    exact bne_iff_ne.2 (Shape.warm_fresh ks r (Reg.isScratch_of_mem_arguments r (List.mem_of_getElem? hr)))
  | none =>
    have := List.getElem?_eq_none_iff.1 hr
    have hlen : argumentRegisters.length = Reg.arguments.length := rfl
    simp only [Src.ok, decide_eq_true_eq]
    omega

theorem check_spillItems {i j : Nat} (harity : i + j ≤ env.arity) (hroom : i + j ≤ wordLimit)
    (hk : Check env (.fresh (List.replicate (i + j) .var)) k) :
    Check env (.fresh (List.replicate i .var)) (spillItems i j ++ k) := by
  induction j generalizing i with
  | zero => exact hk
  | succ j ih =>
    have hthin : env.isThin (List.replicate i .var) = true := by
      cases i with
      | zero => simp [Setting.isThin, pads]
      | succ i => simp [Setting.isThin, List.replicate_succ, pads]
    refine .push ⟨?_, hthin, by decide⟩ (paramSrc_ok (by omega)) (Shape.warm_fresh _) ?_
    · show (List.replicate i Kind.var).length < wordLimit
      rw [List.length_replicate]
      omega
    · rw [← Nat.succ_add_eq_add_succ] at harity hroom hk
      exact ih harity hroom hk

theorem width_spillItems (i j : Nat) : width (spillItems i j) = j := by
  induction j generalizing i with
  | zero => rfl
  | succ j ih => rw [spillItems, width_op, ih]

theorem labels_spillItems (i j : Nat) : labels (spillItems i j) = [] := by
  induction j generalizing i with
  | zero => rfl
  | succ j ih => exact ih _

/-- The place behind the parameters is aligned like that behind any variable. -/
theorem Func.tidy_place (f : Func) (env : Setting) :
    f.place.align.Tidy env ∧ f.place.align.words.length = f.params.length + width f.place.alignItems ∧
      ∀ k, f.params.length + width f.place.alignItems ≤ wordLimit →
        Check env (.fresh f.place.align.words) k →
        Check env (.fresh (List.replicate f.params.length .var)) (f.place.alignItems ++ k) := by
  have hwords : f.place.words = List.replicate f.params.length .var := rfl
  have hlen : f.place.words.length = f.params.length := by simp [hwords]
  have hvars : ∀ k ∈ f.place.words, k = .var ∨ k = .pad ∧ env.strict = false :=
    fun k hk => .inl (List.eq_of_mem_replicate hk)
  by_cases ha : f.place.isAligned = true
  · have halign : f.place.align = f.place := if_pos ha
    have hitems : f.place.alignItems = [] := if_pos ha
    have heven : f.place.words.length % 2 = 0 := by simpa [Spot.isAligned] using ha
    rw [halign, hitems]
    exact ⟨⟨f.filled_place, fun h => Bool.noConfusion h, heven, hvars⟩, hlen, fun k _ hk => hk⟩
  · have halign : f.place.align = { f.place with padded := true, words := .pad :: f.place.words } := if_neg ha
    have hitems : f.place.alignItems = [.op .grow] := if_neg ha
    have hodd : f.place.words.length % 2 = 1 := by
      have : ¬ f.place.words.length % 2 = 0 := by simpa [Spot.isAligned] using ha
      omega
    rw [hitems]
    refine ⟨⟨Spot.filled_align f.filled_place rfl, fun _ => ?_, ?_, ?_⟩, ?_, fun k hroom hk => ?_⟩
    · rw [halign]
      rfl
    · rw [halign, List.length_cons]
      omega
    · rw [halign]
      exact hvars
    · rw [halign, List.length_cons, hlen]
      rfl
    · rw [halign] at hk
      refine .op (Op.effect_grow.2 ⟨?_, rfl⟩) hk
      show (List.replicate f.params.length Kind.var).length < wordLimit
      rw [List.length_replicate]
      exact Nat.lt_of_lt_of_le (Nat.lt_succ_self _) hroom

theorem check_body {c : Meaning} {f : Func} {n n' : Nat} {is : List Item} {q : Spot}
    (hs : StmtsCode c f.place.align n f.body is q n') (harity : env.arityOf = c.arityOf)
    (hparams : f.params.length ≤ env.arity) (hl : ∀ x ∈ labels is, x ∈ env.labels)
    (hf : Fitting env (Stmt.initialisedAll f.body) (Stmt.callDepthAll f.body))
    (hroom : f.params.length + (width f.place.alignItems + width is) ≤ wordLimit) :
    Check env (.fresh []) (spillItems 0 f.params.length ++ (f.place.alignItems ++
      (is ++ (f.place.align.release q ++ [.op (.move (.imm 0) .rax)])))) := by
  obtain ⟨htidy, hlen, halign⟩ := f.tidy_place env
  obtain ⟨hq, hext, -, hcheck⟩ := hs.check harity htidy hf (by omega) hl
  refine check_spillItems (i := 0) (by omega) (by omega) ?_
  rw [Nat.zero_add]
  refine halign _ (by omega) (hcheck _ (Spot.check_release hext htidy hq ?_))
  exact .op (Op.effect_move.2 ⟨rfl, rfl⟩) trivial

/-- **The code of a function is in order.** -/
theorem RoutineCode.check {c : Meaning} {prog : List Subroutine} {mode : Mode} {n n' : Nat} {f : Func}
    {r : Subroutine} (h : RoutineCode c n f r n') (harity : arityOf prog = c.arityOf)
    (hf : Fitting (setting prog mode r) (Stmt.initialisedAll f.body) (Stmt.callDepthAll f.body))
    (hroom : width r.body ≤ wordLimit) : Check (setting prog mode r) (.fresh []) r.body := by
  cases h with
  | mk hs =>
    simp only [width_append, width_spillItems] at hroom
    refine check_body hs harity (Nat.le_refl _) (fun x hx => ?_) hf (by omega)
    simp only [setting, labels_append, List.mem_append]
    exact .inr (.inr (.inl hx))

end MicroC
