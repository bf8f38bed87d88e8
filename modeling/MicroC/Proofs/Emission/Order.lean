import MicroC.Proofs.Ast.Measure
import MicroC.Proofs.Emission.Program
import MicroC.Proofs.Routine.Safe

/-!
# The code of expressions is in order

The code of an expression turns words of some kinds into the same words with one more on top. What stands
behind the code is checked from there on.

* `Check.ofFresh`: nothing but the words matters behind a template.
* `Spacious`: there is room for the words of an expression.
* **`ExprCode.check`**: the code of an expression is in order.
-/

namespace MicroC

open Convention

/-! ## Going on -/

variable {env : Setting} {k : List Item} {ks : List Kind} {κ : Kind}

/-- Code that is in order from some words on is in order for all who know more. -/
theorem Check.ofFresh {th : Shape} (hk : Check env (.fresh ks) k) (hw : th.Warm)
    (hle : kindsLe ks th.words = true) : Check env th k := by
  have hfacts : ∀ r, ((Shape.fresh ks).facts r).le (th.facts r) := by
    intro r
    simp only [Shape.fresh]
    cases hr : r.isScratch with
    | true => exact trivial
    | false => exact hw r hr
  have hle' : (Shape.fresh ks).Le th := ⟨hle, by rintro ⟨⟩, by rintro ⟨⟩, hfacts⟩
  exact hk.mono hle'

theorem Check.op {sh th : Shape} {o : Op} (h : o.effect env sh = some th) (hk : Check env th k) :
    Check env sh (.op o :: k) := ⟨th, h, hk⟩

/-- A word of a kind can be pushed. -/
structure Pushable (env : Setting) (ks : List Kind) (κ : Kind) : Prop where
  room : ks.length < wordLimit
  thin : env.isThin ks = true
  kind : κ ≠ .pad

theorem Check.push {sh : Shape} {s : Src} (hp : Pushable env sh.words κ) (hs : s.ok env sh = true)
    (hw : sh.Warm) (hk : Check env (.fresh (κ :: sh.words)) k) :
    Check env sh (.op (.push s κ) :: k) :=
  .op (Op.effect_push.2 ⟨hs, hp.room, hp.thin, hp.kind, rfl⟩) (hk.ofFresh hw (kindsLe_refl _))

/-! ## Templates -/

theorem check_shrinkItems {sh : Shape} {n : Nat} (hn : n ≤ sh.words.length) (hw : sh.Warm)
    (hk : Check env (.fresh (sh.words.drop n)) k) : Check env sh (shrinkItems n ++ k) := by
  cases n with
  | zero => exact hk.ofFresh hw (kindsLe_refl _)
  | succ n => exact .op (Op.effect_shrink.2 ⟨hn, rfl⟩) (hk.ofFresh hw (kindsLe_refl _))

theorem check_growItems {n : Nat} (hn : ks.length + n ≤ wordLimit)
    (hk : Check env (.fresh (List.replicate n .pad ++ ks)) k) :
    Check env (.fresh ks) (growItems n ++ k) := by
  induction n generalizing ks with
  | zero => exact hk
  | succ n ih =>
    refine .op (Op.effect_grow.2 ⟨?_, rfl⟩) (ih ?_ ?_)
    · exact Nat.lt_of_lt_of_le (Nat.lt_add_of_pos_right n.succ_pos) hn
    · show ks.length + 1 + n ≤ wordLimit
      omega
    · rwa [List.append_cons, ← List.replicate_succ']

theorem check_negationItems (hp : Pushable env ks κ) (hk : Check env (.fresh (κ :: ks)) k) :
    Check env (.fresh (.temp :: ks)) (negationItems κ ++ k) := by
  refine .op (Op.effect_pop.2 ⟨ks, rfl, rfl⟩) (.op (Op.effect_negate.2 ⟨?_, rfl⟩) (.push hp ?_ ?_ hk))
  · simp [Shape.put]
  · simp [Src.ok, Shape.put]
  · exact ((Shape.warm_fresh _).value .rax).value .rax

theorem check_arithmeticItems (f : Arith) (hp : Pushable env ks κ)
    (hk : Check env (.fresh (κ :: ks)) k) :
    Check env (.fresh (.temp :: .temp :: ks)) (arithmeticItems f κ ++ k) := by
  refine .op (Op.effect_pop.2 ⟨_, rfl, rfl⟩) (.op (Op.effect_pop.2 ⟨_, rfl, rfl⟩)
    (.op (Op.effect_combine.2 ⟨?_, ?_, ?_, rfl⟩) (.push hp ?_ ?_ hk)))
  · simp [Src.ok, Shape.put, Reg.r13, Reg.r15]
  · simp [Shape.put]
  · cases f <;> rfl
  · simp [Src.ok, Shape.put]
  · exact (((Shape.warm_fresh _).value .r13).value .r15).value .r15

theorem check_divisionItems {r : Reg} (hr : r.isScratch = false) (hp : Pushable env ks κ)
    (hk : Check env (.fresh (κ :: ks)) k) :
    Check env (.fresh (.temp :: .temp :: ks)) (divisionItems r κ ++ k) := by
  have hwarm : ((((((Shape.fresh ks).put .r13 .value).put .rax .value).put .rdx .value).put .rax .value).put
      .rdx .value).Warm :=
    (((((Shape.warm_fresh ks).value .r13).value .rax).value .rdx).value .rax).value .rdx
  refine .op (Op.effect_pop.2 ⟨_, rfl, rfl⟩) (.op (Op.effect_pop.2 ⟨_, rfl, rfl⟩)
    (.op (Op.effect_extend.2 ⟨?_, rfl⟩) (.op (Op.effect_divide.2 ⟨rfl, ?_, rfl⟩) (.push hp ?_ ?_ hk))))
  · simp [Shape.put]
  · simp [Shape.put, Reg.r13, Reg.rdx, Reg.rax]
  · exact bne_iff_ne.2 (hwarm r hr)
  · exact hwarm

theorem check_comparisonItems (o : Order) (hp : Pushable env ks κ)
    (hk : Check env (.fresh (κ :: ks)) k) :
    Check env (.fresh (.temp :: .temp :: ks)) (comparisonItems o κ ++ k) := by
  refine .op (Op.effect_pop.2 ⟨_, rfl, rfl⟩) (.op (Op.effect_pop.2 ⟨_, rfl, rfl⟩)
    (.op (Op.effect_move.2 ⟨rfl, rfl⟩) (.op (Op.effect_move.2 ⟨rfl, rfl⟩)
      (.op (Op.effect_compare.2 ⟨?_, ?_, rfl⟩) (.op (Op.effect_select.2 ⟨rfl, ?_, ?_, rfl⟩)
        (.push hp ?_ ?_ hk))))))
  · simp [Src.ok, Shape.put, Reg.r12, Reg.r13, Reg.r15, Reg.rax]
  · simp [Shape.put, Reg.r12, Reg.r13, Reg.r15]
  · simp [Shape.put, Src.fact]
  · simp [Shape.put, Src.fact, Reg.r12, Reg.r13]
  · simp [Src.ok, Shape.put]
  · exact (((((Shape.warm_fresh _).value .rax).value .r15).const .r12 0).const .r13 1).value .r12

theorem check_powerItems {n : Nat} (hl : ∀ p ∈ labels (powerItems ks n κ), p ∈ env.labels)
    (hp : Pushable env ks κ) (hk : Check env (.fresh (κ :: ks)) k) :
    Check env (.fresh (.temp :: .temp :: ks)) (powerItems ks n κ ++ k) := by
  have hloop : (labelName n "pow_loop", ks) ∈ env.labels := hl _ List.mem_cons_self
  have hend : (labelName (n + 1) "pow_end", ks) ∈ env.labels :=
    hl _ (List.mem_cons_of_mem _ List.mem_cons_self)
  refine .op (Op.effect_pop.2 ⟨_, rfl, rfl⟩) (.op (Op.effect_pop.2 ⟨_, rfl, rfl⟩)
    (.op (Op.effect_move.2 ⟨rfl, rfl⟩) ⟨kindsLe_refl _, ?_⟩))
  refine .op (Op.effect_compare.2 ⟨rfl, ?_, rfl⟩) (.op (Op.effect_jump.2
    ⟨.inr rfl, ⟨ks, hend, kindsLe_refl _⟩, rfl⟩) (.op (Op.effect_combine.2 ⟨?_, ?_, rfl, rfl⟩)
      (.op (Op.effect_combine.2 ⟨rfl, ?_, rfl, rfl⟩) (.op (Op.effect_jump.2
        ⟨.inl rfl, ⟨ks, hloop, kindsLe_refl _⟩, rfl⟩) ⟨kindsLe_refl _, .push hp ?_ ?_ hk⟩))))
  · exact Shape.warm_fresh ks .rcx rfl
  · exact bne_iff_ne.2 (Shape.warm_fresh ks .rbx rfl)
  · exact Shape.warm_fresh ks .rax rfl
  · exact (Shape.warm_fresh ks).value .rax .rcx rfl
  · exact bne_iff_ne.2 (Shape.warm_fresh ks .rax rfl)
  · exact Shape.warm_fresh ks

theorem check_operatorItems {n : Nat} {op : BinaryOp}
    (hl : ∀ p ∈ labels (operatorItems ks n κ op), p ∈ env.labels) (hp : Pushable env ks κ)
    (hk : Check env (.fresh (κ :: ks)) k) :
    Check env (.fresh (.temp :: .temp :: ks)) (operatorItems ks n κ op ++ k) := by
  cases op with
  | add => exact check_arithmeticItems .add hp hk
  | sub => exact check_arithmeticItems .sub hp hk
  | mul => exact check_arithmeticItems .mul hp hk
  | div => exact check_divisionItems rfl hp hk
  | mod => exact check_divisionItems rfl hp hk
  | pow => exact check_powerItems hl hp hk
  | _ => exact check_comparisonItems _ hp hk

theorem check_popItems {rs : List Reg} {n : Nat} {sh : Shape}
    (hsh : sh.words = List.replicate (rs.length + n) .temp ++ ks) (hw : sh.Warm)
    (hk : Check env (.fresh (List.replicate n .temp ++ ks)) k) : Check env sh (popItems rs ++ k) := by
  induction rs generalizing sh with
  | nil =>
    rw [List.length_nil, Nat.zero_add] at hsh
    exact hk.ofFresh hw (hsh ▸ kindsLe_refl _)
  | cons r rs ih =>
    rw [List.length_cons, Nat.add_right_comm, List.replicate_succ, List.cons_append] at hsh
    exact .op (Op.effect_pop.2 ⟨_, hsh, rfl⟩) (ih rfl (hw.value r))

theorem pads_replicate (n : Nat) (ks : List Kind) : pads (List.replicate n .pad ++ ks) = pads ks + n := by
  induction n with
  | zero => rfl
  | succ n ih =>
    rw [List.replicate_succ, List.cons_append, pads, ih]
    rfl

theorem isThin_temps {n : Nat} (h : env.isThin ks = true) :
    env.isThin (List.replicate n .temp ++ ks) = true := by
  cases n with
  | zero => exact h
  | succ n => simp [Setting.isThin, List.replicate_succ, pads]

theorem check_callItems {f : String} {n p : Nat} (hf : env.arityOf f = some n)
    (hp : p = callPadding ks.length n) (hpush : Pushable env ks κ)
    (hthin : env.isThin (List.replicate p .pad ++ ks) = true) (hk : Check env (.fresh (κ :: ks)) k) :
    Check env (.fresh (List.replicate n .temp ++ (List.replicate p .pad ++ ks)))
      (callItems f n p κ ++ k) := by
  have hregs : (Reg.arguments.take n).length + stackArguments n = n := by
    rw [List.length_take, stackArguments, show Reg.arguments.length = 6 from rfl,
      show argumentRegisters.length = 6 from rfl]
    omega
  rw [callItems, List.append_assoc, List.cons_append, List.append_assoc]
  have hlen : (List.replicate (stackArguments n) Kind.temp ++ (List.replicate p Kind.pad ++ ks)).length =
      stackArguments n + p + ks.length := by
    rw [List.length_append, List.length_append, List.length_replicate, List.length_replicate, Nat.add_assoc]
  have hdrop : (List.replicate (stackArguments n) Kind.temp ++ (List.replicate p Kind.pad ++ ks)).drop
      (stackArguments n + p) = ks := by
    rw [← List.append_assoc, List.drop_left' (by simp)]
  refine check_popItems (by rw [hregs]; rfl) (Shape.warm_fresh _)
    (.op (Op.effect_call.2 ⟨n, hf, ?_, isThin_temps hthin, ?_, rfl⟩) (check_shrinkItems ?_ (Shape.warm_fresh _) ?_))
  · rw [callPadding] at hp
    show (List.replicate (stackArguments n) Kind.temp ++ (List.replicate p Kind.pad ++ ks)).length % 2 = 0
    rw [hlen]
    omega
  · exact List.take_left' (by simp)
  · show _ ≤ (List.replicate (stackArguments n) Kind.temp ++ (List.replicate p Kind.pad ++ ks)).length
    rw [hlen]
    omega
  · show Check env (.fresh ((List.replicate (stackArguments n) Kind.temp ++
      (List.replicate p Kind.pad ++ ks)).drop (stackArguments n + p))) _
    rw [hdrop]
    exact .push hpush (bne_iff_ne.2 (Shape.warm_fresh ks .rax rfl)) (Shape.warm_fresh ks) hk

/-! ## Expressions -/

/-- The words of some slots can be used as variables. -/
def Usable (env : Setting) (slots : List NodeId) (ks : List Kind) : Prop :=
  ∀ m < slots.length, Src.isVariable env ks m = true

theorem Usable.append {slots : List NodeId} (h : Usable env slots ks) (js : List Kind) :
    Usable env slots (js ++ ks) := by
  intro m hm
  have hv := h m hm
  have hlt : m < ks.length := by
    unfold Src.isVariable at hv
    split at hv
    · next hu => exact lt_of_under hu
    · next hu => exact lt_of_under hu
    · cases hv
  unfold Src.isVariable at hv ⊢
  rwa [under_append, if_pos hlt]

theorem slotNumber?_le {d : NodeId} {slots : List NodeId} {n : Nat}
    (h : Frame.slotNumber? d slots = some n) : n ≤ slots.length := by
  induction slots with
  | nil => cases h
  | cons e es ih =>
    rw [Frame.slotNumber?] at h
    split at h
    · cases h
      exact Nat.le_refl _
    · exact Nat.le_succ_of_le (ih h)

theorem Meaning.slot?_lt {c : Meaning} {slots : List NodeId} {use : NodeId} {m : Nat}
    (h : c.slot? slots use = some m) : m < slots.length := by
  obtain ⟨n, hn, rfl⟩ := Option.map_eq_some_iff.1 h
  obtain ⟨d, -, hd⟩ := Option.bind_eq_some_iff.1 hn
  have := slotNumber?_le hd
  have := slotNumber?_pos hd
  omega

section Expressions

variable {c : Meaning} {slots : List NodeId}

theorem ExprCode.width_pos {ks : List Kind} {n n' : Nat} {κ : Kind} {e : Expr} {is : List Item}
    (h : ExprCode c slots ks n κ e is n') : 0 < width is := by
  match h with
  | .narrow _ | .wide _ | .var _ => simp
  | .plus hx => exact hx.width_pos
  | .neg _ => simp [negationItems]
  | .assign _ _ => simp [storeItems]
  | .binary _ hx _ =>
    have := hx.width_pos
    rw [width_append]
    omega
  | .call _ _ _ =>
    simp only [callItems, width_append, width_op]
    omega

theorem ArgsCode.length_le_width {ks : List Kind} {n n' : Nat} {es : List Expr} {is : List Item}
    (h : ArgsCode c slots ks n es is n') : es.length ≤ width is := by
  match h with
  | .nil => exact Nat.zero_le _
  | .cons hes he =>
    have := he.width_pos
    have := hes.length_le_width
    rw [List.length_cons, width_append]
    omega

theorem width_growItems (n : Nat) : width (growItems n) = n := by
  induction n with
  | zero => rfl
  | succ n ih =>
    show width (.op .grow :: growItems n) = n + 1
    rw [width_op, ih]

/-- There is room for the words that code puts on the stack, and little padding below them. -/
structure Spacious (env : Setting) (ks : List Kind) (items depth : Nat) : Prop where
  room : ks.length + items ≤ wordLimit
  thin : env.thin = true → pads ks + depth ≤ slack

namespace Spacious

variable {ks : List Kind} {i j d d' : Nat}

theorem isThin (h : Spacious env ks i d) : env.isThin ks = true := by
  unfold Setting.isThin
  cases ht : env.thin with
  | false => rfl
  | true =>
    have := h.thin ht
    simp only [Bool.not_true, Bool.false_or, decide_eq_true_eq]
    omega

theorem pushable (h : Spacious env ks i d) (hi : 0 < i) {κ : Kind} (hκ : κ ≠ .pad) : Pushable env ks κ :=
  ⟨Nat.lt_of_lt_of_le (Nat.lt_add_of_pos_right hi) h.room, h.isThin, hκ⟩

theorem mono (h : Spacious env ks i d) (hi : j ≤ i) (hd : d' ≤ d) : Spacious env ks j d' :=
  ⟨Nat.le_trans (Nat.add_le_add_left hi _) h.room,
    fun ht => Nat.le_trans (Nat.add_le_add_left hd _) (h.thin ht)⟩

/-- On top of temporaries there is no padding. -/
theorem temps (h : Spacious env ks i d) {n : Nat} (hi : j + n ≤ i) (hd : d' ≤ d) :
    Spacious env (List.replicate n .temp ++ ks) j d' := by
  refine ⟨?_, fun ht => ?_⟩
  · have := h.room
    rw [List.length_append, List.length_replicate]
    omega
  · have := h.thin ht
    cases n with
    | zero =>
      rw [List.replicate_zero, List.nil_append]
      omega
    | succ n =>
      rw [List.replicate_succ, List.cons_append, pads]
      · omega
      · rintro _ ⟨⟩

theorem pads (h : Spacious env ks i d) {n : Nat} (hi : j + n ≤ i) (hd : d' + n ≤ d) :
    Spacious env (List.replicate n .pad ++ ks) j d' := by
  refine ⟨?_, fun ht => ?_⟩
  · have := h.room
    rw [List.length_append, List.length_replicate]
    omega
  · have := h.thin ht
    rw [pads_replicate]
    omega

end Spacious

mutual

/-- **The code of an expression is in order.** -/
theorem ExprCode.check (harity : env.arityOf = c.arityOf) {ks : List Kind} {n n' : Nat} {κ : Kind}
    {e : Expr} {is k : List Item} (h : ExprCode c slots ks n κ e is n') (hvars : Usable env slots ks)
    (hl : ∀ p ∈ labels is, p ∈ env.labels) (hs : Spacious env ks (width is) e.callDepth)
    (hκ : κ ≠ .pad) (hk : Check env (.fresh (κ :: ks)) k) : Check env (.fresh ks) (is ++ k) := by
  have hpush := hs.pushable h.width_pos hκ
  match h with
  | .narrow _ => exact .push hpush rfl (Shape.warm_fresh ks) hk
  | .wide (v := v) _ =>
    refine .op (Op.effect_move.2 ⟨rfl, rfl⟩) (.push hpush ?_ ((Shape.warm_fresh ks).const .rax v) hk)
    simp [Src.ok, Shape.put, Src.fact]
  | .var hm => exact .push hpush (hvars _ (Meaning.slot?_lt hm)) (Shape.warm_fresh ks) hk
  | .plus hx => exact hx.check harity hvars hl hs hκ hk
  | .neg hx =>
    rw [labels_append] at hl
    rw [List.append_assoc]
    refine hx.check harity hvars (fun p hp => hl p (List.mem_append_left _ hp)) ?_ (by decide)
      (check_negationItems hpush hk)
    exact hs.mono (by rw [width_append]; omega) (Nat.le_refl _)
  | .assign (m := m) hm hy =>
    rw [labels_append] at hl
    rw [List.append_assoc]
    refine hy.check harity hvars (fun p hp => hl p (List.mem_append_left _ hp)) ?_ hκ ?_
    · exact hs.mono (by rw [width_append]; omega) (Nat.le_max_right _ _)
    · have hvars' := hvars.append [κ] m (Meaning.slot?_lt hm)
      refine .op (Op.effect_peek.2 ⟨κ, ks, rfl, hκ, rfl⟩) (.op (Op.effect_store.2 ⟨?_, hvars', rfl⟩) ?_)
      · simp [Shape.put]
      · exact hk.ofFresh ((Shape.warm_fresh _).value .rax) (kindsLe_refl _)
  | @ExprCode.binary _ _ _ _ _ _ _ _ _ _ _ _ is js _ hx hy =>
    rw [labels_append, labels_append] at hl
    rw [List.append_assoc, List.append_assoc]
    have hpos := hx.width_pos
    refine hx.check harity hvars (fun p hp => hl p (List.mem_append_left _ hp)) ?_ (by decide) ?_
    · exact hs.mono (by rw [width_append]; omega) (Nat.le_max_left _ _)
    · have hs' := hs.temps (j := width js) (n := 1) (by rw [width_append, width_append]; omega)
        (Nat.le_max_right _ _)
      refine hy.check harity (hvars.append [.temp])
        (fun p hp => hl p (List.mem_append_right _ (List.mem_append_left _ hp))) hs' (by decide) ?_
      exact check_operatorItems (fun p hp => hl p (List.mem_append_right _ (List.mem_append_right _ hp)))
        hpush hk
  | @ExprCode.call _ _ _ _ _ p _ _ f args is hf hp hargs =>
    rw [labels_append, labels_append] at hl
    rw [List.append_assoc, List.append_assoc]
    have hp1 : p ≤ 1 := by
      rw [hp, callPadding]
      omega
    have hw : width (growItems p ++ (is ++ callItems f.name args.length p κ)) =
        p + (width is + width (callItems f.name args.length p κ)) := by
      rw [width_append, width_append, width_growItems]
    have hs' : Spacious env (List.replicate p .pad ++ ks) (width is) (Expr.callDepthAll args) :=
      hs.pads (by rw [hw]; omega) (Nat.add_le_add_left hp1 _)
    refine check_growItems ?_ (hargs.check harity (hvars.append _)
      (fun q hq => hl q (List.mem_append_right _ (List.mem_append_left _ hq))) hs' ?_)
    · have := hs.room
      omega
    · exact check_callItems (harity ▸ hf) hp hpush hs'.isThin hk

theorem ArgsCode.check (harity : env.arityOf = c.arityOf) {ks : List Kind} {n n' : Nat}
    {es : List Expr} {is k : List Item} (h : ArgsCode c slots ks n es is n') (hvars : Usable env slots ks)
    (hl : ∀ p ∈ labels is, p ∈ env.labels) (hs : Spacious env ks (width is) (Expr.callDepthAll es))
    (hk : Check env (.fresh (List.replicate es.length .temp ++ ks)) k) :
    Check env (.fresh ks) (is ++ k) := by
  match h with
  | .nil => exact hk
  | @ArgsCode.cons _ _ _ _ _ _ _ es is js hes he =>
    rw [labels_append] at hl
    rw [List.append_assoc]
    have hlen := hes.length_le_width
    refine hes.check harity hvars (fun p hp => hl p (List.mem_append_left _ hp)) ?_ ?_
    · exact hs.mono (by rw [width_append]; omega) (Nat.le_max_right _ _)
    · refine he.check harity (hvars.append _) (fun p hp => hl p (List.mem_append_right _ hp)) ?_ (by decide)
        hk
      exact hs.temps (by rw [width_append]; omega) (Nat.le_max_left _ _)

end

end Expressions

end MicroC
