import MicroC.Proofs.Analysis.Rules

/-!
# Typing by the rules

Typing goes through a program from left to right and reads the type of a declaration from what it recorded
earlier. A use refers to a declaration in front of it, so this is always there, and typing finds just what the
rules say.

* `Types`: a pass that types some nodes by the rules.
* `types_typeExpr`, `types_typeStmt`, `types_typeProgram`: the passes of typing do so.
* **`typed_by_rules`**: typing succeeds exactly when every declaration and every expression has a type, and
  records these types and nothing else.
-/

namespace MicroC

/-! ## Passes that type nodes -/

open Pass

/-- A table that has types by the rules only, and those of some nodes. -/
structure Correct (names : Names) (E : List Expr) (D : List Decl) (known : List NodeId) (t : TypeTable) : Prop where
  right : ∀ i ty, t.get? i = some ty → NodeType names E D i ty
  known : ∀ i ∈ known, (t.get? i).isSome = true

/-- What a pass does that types the nodes `new`, where those in `old` have their types already. It succeeds
exactly with the values that `P` allows. -/
structure Types (names : Names) (E : List Expr) (D : List Decl) {α : Type} (x : Pass TypeTable α) (P : α → Prop)
    (old new : List NodeId) : Prop where
  success : ∀ {t v}, Correct names E D old t → P v → ∃ t', x.run t = (.ok v, t')
  sound : ∀ {t v t'}, Correct names E D old t → x.run t = (.ok v, t') → P v ∧ Correct names E D (new ++ old) t'

namespace Types

variable {names : Names} {E : List Expr} {D : List Decl} {α β : Type} {x : Pass TypeTable α} {P Q : α → Prop}
  {old m n : List NodeId}

theorem congr (h : Types names E D x P old n) (hP : ∀ v, Q v ↔ P v) (hsub : ∀ i ∈ m, i ∈ n) :
    Types names E D x Q old m := by
  refine ⟨fun ht hv => h.success ht ((hP _).1 hv), fun ht hrun => ?_⟩
  obtain ⟨hv, hc⟩ := h.sound ht hrun
  refine ⟨(hP _).2 hv, hc.right, fun i hi => hc.known i ?_⟩
  exact List.mem_append.2 ((List.mem_append.1 hi).imp_left (hsub i))

theorem pure (v : α) : Types names E D (Pure.pure v) (v = ·) old [] := by
  refine ⟨fun {t _} _ hv => ⟨t, hv ▸ rfl⟩, fun ht hrun => ?_⟩
  obtain ⟨hv, rfl⟩ := pure_eq_ok.1 hrun
  exact ⟨hv, ht⟩

theorem reject {fault : SemanticFault} {span : Span} :
    Types names E D (Pass.reject fault span : Pass TypeTable α) (fun _ => False) old n :=
  ⟨fun _ hv => hv.elim, fun _ hrun => absurd hrun reject_ne_ok⟩

theorem bind {f : α → Pass TypeTable β} {R : α → β → Prop} (h : Types names E D x P old n)
    (hf : ∀ v, P v → Types names E D (f v) (R v) (n ++ old) m) :
    Types names E D (x >>= f) (fun w => ∃ v, P v ∧ R v w) old (m ++ n) := by
  refine ⟨?_, fun ht hrun => ?_⟩
  · rintro t w ht ⟨v, hv, hw⟩
    obtain ⟨u, hu⟩ := h.success ht hv
    obtain ⟨t', ht'⟩ := (hf v hv).success (h.sound ht hu).2 hw
    exact ⟨t', bind_eq_ok.2 ⟨v, u, hu, ht'⟩⟩
  · obtain ⟨v, u, hu, hw⟩ := bind_eq_ok.1 hrun
    obtain ⟨hv, hc⟩ := h.sound ht hu
    obtain ⟨hr, hc'⟩ := (hf v hv).sound hc hw
    exact ⟨⟨v, hv, hr⟩, by rwa [List.append_assoc]⟩

theorem next {y : Pass TypeTable β} {R : β → Prop} (h : Types names E D x P old n)
    (hy : Types names E D y R (n ++ old) m) :
    Types names E D (x >>= fun _ => y) (fun w => (∃ v, P v) ∧ R w) old (m ++ n) :=
  (h.bind fun _ _ => hy).congr (fun w => by rw [exists_and_right]) fun _ hi => hi

theorem guard {p : Prop} [Decidable p] {fault : SemanticFault} {span : Span} {f : Unit → Pass TypeTable α}
    (h : ¬ p → Types names E D (f ()) P old n) :
    Types names E D (if p then Pass.reject fault span >>= f else f ()) (fun v => ¬ p ∧ P v) old n := by
  refine ⟨fun ht hv => ?_, fun ht hrun => ?_⟩
  · rw [if_neg hv.1]
    exact (h hv.1).success ht hv.2
  · obtain ⟨hp, hrun⟩ := guard_eq_ok.1 hrun
    obtain ⟨hv, hc⟩ := (h hp).sound ht hrun
    exact ⟨⟨hp, hv⟩, hc⟩

end Types

section Passes

variable {names : Names} {E : List Expr} {D : List Decl} {old : List NodeId}

theorem types_record {i : NodeId} {ty : Ty} (h : NodeType names E D i ty) :
    Types names E D (record i ty) (ty = ·) old [i] := by
  refine ⟨fun {t _} _ hv => ⟨t.insert i ty, hv ▸ rfl⟩, fun {t v t'} ht hrun => ?_⟩
  obtain ⟨rfl, rfl⟩ := record_eq_ok.1 hrun
  refine ⟨rfl, fun j ty' hj => ?_, fun j hj => ?_⟩
  · rw [Table.get?_insert] at hj
    split at hj
    · next heq =>
      cases hj
      exact heq ▸ h
    · exact ht.right j ty' hj
  · rw [Table.get?_insert]
    split
    · rfl
    · next hne => exact ht.known j ((List.mem_cons.1 hj).resolve_left hne)

theorem types_scalarOf (n : Ident) :
    Types names E D (scalarOf n) (fun s => Scalar.ofName? n.name = some s) old [] := by
  unfold scalarOf
  split
  · next s hs => exact (Types.pure s).congr (fun v => by rw [hs, Option.some.injEq]) fun _ hi => hi
  · next hs => exact Types.reject.congr (fun v => by simp [hs]) fun _ hi => hi

theorem types_binaryType (op : BinaryOp) (sp : Span) (lhs rhs : Ty) :
    Types names E D (binaryType op sp lhs rhs) (fun ty => lhs = rhs ∧ (op = .assign ∨ lhs.isNumeric = true) ∧
      (if op.isComparison then .int else lhs) = ty) old [] := by
  unfold binaryType
  split
  · next h =>
    refine Types.reject.congr (fun ty => iff_false_intro ?_) fun _ hi => hi
    rintro ⟨heq, hop, -⟩
    rcases h with h | ⟨h, hn⟩
    · exact h heq
    · exact hop.elim h fun hnum => by rw [hn] at hnum; cases hnum
  · next h =>
    rw [not_or, not_not, not_and_or, not_not, Bool.not_eq_false] at h
    refine (Types.pure _).congr (fun ty => ?_) fun _ hi => hi
    rw [← and_assoc, and_iff_right h]

theorem types_unaryType (op : UnaryOp) (sp : Span) (operand : Ty) :
    Types names E D (unaryType op sp operand) (fun ty => operand.isNumeric = true ∧ operand = ty) old [] := by
  unfold unaryType
  split
  · next h => exact (Types.pure _).congr (fun ty => and_iff_right h) fun _ hi => hi
  · next h => exact Types.reject.congr (fun ty => iff_false_intro fun hty => h hty.1) fun _ hi => hi

theorem types_signatureOf (n : Ident) (given : Nat) :
    Types names E D (signatureOf names n given)
      (fun s => names.functions.get? n.name = some s ∧ given = s.params.length) old [] := by
  unfold signatureOf
  split
  · next h => exact Types.reject.congr (fun s => by simp [h]) fun _ hi => hi
  · next s h =>
    split
    · next hlen =>
      refine (Types.pure s).congr (fun s' => ?_) fun _ hi => hi
      rw [h, Option.some.injEq]
      exact ⟨And.left, fun heq => ⟨heq, heq ▸ hlen⟩⟩
    · next hlen =>
      refine Types.reject.congr (fun s' => iff_false_intro ?_) fun _ hi => hi
      rintro ⟨hs, hlen'⟩
      rw [h] at hs
      cases hs
      exact hlen hlen'

/-- Uses that refer to declarations which have their types already. -/
def Bound (names : Names) (D : List Decl) (old : List NodeId) (us : List Use) : Prop :=
  ∀ u ∈ us, ∃ d ∈ D, names.symbols.get? u.id = some d.id ∧ d.id ∈ old

theorem Bound.mono {old' : List NodeId} {us vs : List Use} (h : Bound names D old us) (hu : ∀ u ∈ vs, u ∈ us)
    (ho : ∀ i ∈ old, i ∈ old') : Bound names D old' vs := by
  intro u hmem
  obtain ⟨d, hd, hs, hold⟩ := h u (hu u hmem)
  exact ⟨d, hd, hs, ho _ hold⟩

theorem types_declaredType (hn : Numbered E D) {use : NodeId} {d : Decl} (n : Ident) (hd : d ∈ D)
    (hs : names.symbols.get? use = some d.id) (hold : d.id ∈ old) :
    Types names E D (declaredType names use n) (fun ty => d.ty? = some ty) old [] := by
  have hrun : ∀ {t : TypeTable}, Correct names E D old t → ∃ ty, d.ty? = some ty ∧
      (declaredType names use n).run t = (.ok ty, t) := by
    intro t ht
    obtain ⟨ty, hty⟩ := Option.isSome_iff_exists.1 (ht.known _ hold)
    refine ⟨ty, (hn.declHasType_of_nodeType hd (ht.right _ _ hty)).declared, bind_eq_ok.2 ⟨t, t, rfl, ?_⟩⟩
    rw [hs, Option.bind_some, hty]
    rfl
  refine ⟨fun {t v} ht hv => ?_, fun {t v t'} ht hv => ?_⟩
  · obtain ⟨ty, hty, hrun⟩ := hrun ht
    cases hty.symm.trans hv
    exact ⟨t, hrun⟩
  · obtain ⟨ty, hty, hrun⟩ := hrun ht
    cases hrun.symm.trans hv
    exact ⟨hty, ht⟩

mutual

/-- **An expression is typed by the rules**, if the declarations that it uses have their types already. -/
theorem types_typeExpr (hn : Numbered E D) {old : List NodeId} {e : Expr} (hE : ∀ x ∈ e.subs, x ∈ E) (hu : Bound names D old e.uses) :
    Types names E D (typeExpr names e) (HasType names D e) old e.nodes := by
  have hself : e ∈ E := hE e e.mem_subs_self
  match e with
  | .int s v =>
    refine (types_record (.expr hself .int)).congr (fun ty => ?_) fun _ hi => hi
    exact ⟨fun h => by cases h; rfl, fun h => h ▸ .int⟩
  | .float s v =>
    refine (types_record (.expr hself .float)).congr (fun ty => ?_) fun _ hi => hi
    exact ⟨fun h => by cases h; rfl, fun h => h ▸ .float⟩
  | .string s v =>
    refine (types_record (.expr hself .string)).congr (fun ty => ?_) fun _ hi => hi
    exact ⟨fun h => by cases h; rfl, fun h => h ▸ .string⟩
  | .var s n =>
    obtain ⟨d, hd, hs, hold⟩ := hu ⟨s.id, n.name⟩ List.mem_cons_self
    refine ((types_declaredType hn n hd hs hold).bind fun ty hty =>
      types_record (.expr hself (.var hd hs hty))).congr (fun ty => ?_) fun _ hi => hi
    constructor
    · intro h
      cases h with
      | var hd' hs' hty =>
        obtain rfl := hn.decl_id_eq hd hd' (Option.some.inj (hs'.symm.trans hs))
        exact ⟨ty, hty, rfl⟩
    · rintro ⟨_, hty, rfl⟩
      exact .var hd hs hty
  | .index s n i =>
    obtain ⟨d, hd, hs, hold⟩ := hu ⟨s.id, n.name⟩ (List.mem_append_right _ List.mem_cons_self)
    have hi : Types names E D (typeExpr names i) _ old i.nodes := types_typeExpr hn (fun x hx => hE x (List.mem_cons_of_mem _ hx))
      (hu.mono (fun u hu => List.mem_append_left _ hu) fun _ ho => ho)
    have hdecl : Types names E D (declaredType names s.id n) _ (i.nodes ++ old) [] :=
      types_declaredType hn n hd hs (List.mem_append_right _ hold)
    refine (hi.bind (R := fun ty w => ¬ ty ≠ .int ∧ ∃ v, d.ty? = some v ∧ v.element? = some w) (m := [s.id])
      fun found hfound => Types.guard fun hint => (hdecl.bind (m := [s.id]) fun v hv => ?element)).congr
        (fun w => ?_) (fun j hj => hj)
    case element =>
      have hsub : HasType names D i .int := Decidable.not_not.1 hint ▸ hfound
      cases v with
      | scalar _ => exact Types.reject.congr (fun w => by simp [Ty.element?]) fun _ hi => hi
      | array el k =>
        exact (types_record (.expr hself (.index hsub hd hs hv))).congr (fun w => by simp [Ty.element?])
          fun _ hi => hi
    constructor
    · intro h
      cases h with
      | index hi hd' hs' ht =>
        obtain rfl := hn.decl_id_eq hd hd' (Option.some.inj (hs'.symm.trans hs))
        exact ⟨.int, hi, by simp, _, ht, rfl⟩
    · rintro ⟨ty, hi, hint, v, hv, hw⟩
      cases v with
      | scalar _ => cases hw
      | array el k =>
        cases hw
        exact .index (Decidable.not_not.1 hint ▸ hi) hd hs hv
  | .call s n args =>
    have hargs := fun (sig : Signature) (hlen : args.length = sig.params.length) =>
      types_typeArgs hn n 0 (fun x hx => hE x (List.mem_cons_of_mem _ hx)) hu hlen
    have hall := (types_signatureOf n args.length).bind fun sig hsig => (hargs sig hsig.2).bind fun _ hhave =>
      types_record (.expr hself (.call hsig.1 hhave))
    refine hall.congr (fun w => ?_) (by simp [Expr.nodes, Expr.id, Expr.site])
    constructor
    · intro h
      cases h with
      | call hs ha => exact ⟨_, ⟨hs, ha.length_eq⟩, (), ha, rfl⟩
    · rintro ⟨sig, ⟨hs, -⟩, _, ha, rfl⟩
      exact .call hs ha
  | .unary s op sp x =>
    have hx := types_typeExpr hn (e := x) (fun y hy => hE y (List.mem_cons_of_mem _ hy)) hu
    have hall := hx.bind fun ty hty => (types_unaryType op sp ty).bind fun w hw =>
      types_record (.expr hself (hw.2 ▸ HasType.unary hty hw.1))
    refine hall.congr (fun w => ?_) (by simp [Expr.nodes, Expr.id, Expr.site])
    constructor
    · intro h
      cases h with
      | unary hx hnum => exact ⟨w, hx, w, ⟨hnum, rfl⟩, rfl⟩
    · rintro ⟨ty, hx, _, ⟨hnum, rfl⟩, rfl⟩
      exact .unary hx hnum
  | .binary s op sp x y =>
    have hx := types_typeExpr hn (e := x)
      (fun z hz => hE z (List.mem_cons_of_mem _ (List.mem_append_left _ hz)))
      (hu.mono (fun u hu => List.mem_append_left _ hu) fun _ ho => ho)
    have hy : Types names E D (typeExpr names y) _ (x.nodes ++ old) y.nodes := types_typeExpr hn
      (fun z hz => hE z (List.mem_cons_of_mem _ (List.mem_append_right _ hz)))
      (hu.mono (fun u hu => List.mem_append_right _ hu) fun _ ho => List.mem_append_right _ ho)
    have hrule : ∀ {lhs rhs ty}, HasType names D x lhs → HasType names D y rhs → lhs = rhs ∧
        (op = .assign ∨ lhs.isNumeric = true) ∧ (if op.isComparison then .int else lhs) = ty →
        HasType names D (.binary s op sp x y) ty := by
      rintro lhs _ _ hx hy ⟨rfl, hop, rfl⟩
      by_cases hc : op.isComparison = true
      · rw [if_pos hc]
        refine .comparison hc hx hy (hop.resolve_left fun heq => ?_)
        rw [heq] at hc
        cases hc
      · rw [if_neg hc]
        by_cases ha : op = .assign
        · subst ha
          exact .assign hx hy
        · exact .arithmetic ha (eq_false_of_ne_true hc) hx hy (hop.resolve_left ha)
    have hall := hx.bind fun lhs hl => hy.bind fun rhs hr => (types_binaryType op sp lhs rhs).bind fun w hw =>
      types_record (.expr hself (hrule hl hr hw))
    refine hall.congr (fun w => ?_) (by simp [Expr.nodes, Expr.id, Expr.site, or_comm])
    constructor
    · intro h
      cases h with
      | assign hx hy => exact ⟨w, hx, w, hy, w, ⟨rfl, .inl rfl, rfl⟩, rfl⟩
      | @comparison _ _ _ _ _ ty ho hx hy hnum => exact ⟨ty, hx, ty, hy, _, ⟨rfl, .inr hnum, if_pos ho⟩, rfl⟩
      | arithmetic _ ho hx hy hnum => exact ⟨w, hx, w, hy, w, ⟨rfl, .inr hnum, by rw [ho]; rfl⟩, rfl⟩
    · rintro ⟨lhs, hx, rhs, hy, _, hw, rfl⟩
      exact hrule hx hy hw

theorem types_typeArgs (hn : Numbered E D) {old : List NodeId} (n : Ident) (i : Nat) {es : List Expr}
    {tys : List Ty} (hE : ∀ x ∈ Expr.subsList es, x ∈ E) (hu : Bound names D old (Expr.usesList es))
    (hlen : es.length = tys.length) :
    Types names E D (typeArgs names n i es tys) (fun _ => HaveTypes names D es tys) old (Expr.nodesList es) := by
  match es, tys, hlen with
  | [], [], _ => exact (Types.pure ()).congr (fun _ => iff_of_true .nil rfl) fun _ hi => hi
  | e :: es, ty :: tys, hlen =>
    have he := types_typeExpr hn (e := e) (fun x hx => hE x (List.mem_append_left _ hx))
      (hu.mono (fun u hu => List.mem_append_left _ hu) fun _ ho => ho)
    have hes : Types names E D (typeArgs names n (i + 1) es tys) _ (e.nodes ++ old) _ := types_typeArgs hn n (i + 1)
      (fun x hx => hE x (List.mem_append_right _ hx))
      (hu.mono (fun u hu => List.mem_append_right _ hu) fun _ ho => List.mem_append_right _ ho) (Nat.succ.inj hlen)
    refine (he.bind fun given _ => Types.guard fun _ => hes).congr (fun _ => ?_) (by simp [Expr.nodesList, or_comm])
    constructor
    · intro h
      cases h with
      | cons he hes => exact ⟨ty, he, by simp, hes⟩
    · rintro ⟨given, he, heq, hes⟩
      exact .cons (Decidable.not_not.1 heq ▸ he) hes

end

theorem types_typeOption (hn : Numbered E D) {o : Option Expr} (hE : ∀ x ∈ Expr.subsOption o, x ∈ E)
    (hu : Bound names D old (Expr.usesOption o)) :
    Types names E D (typeOption names o) (fun _ => Typable names D (Expr.subsOption o) []) old
      (Expr.nodesOption o) := by
  cases o with
  | none => exact (Types.pure ()).congr (fun _ => iff_of_true typable_nil rfl) fun _ hi => hi
  | some e =>
    refine ((types_typeExpr hn hE hu).next (Types.pure ())).congr (fun _ => ?_) fun _ hi => hi
    exact typable_subs.trans (and_iff_left rfl).symm

theorem hasType_variable {b : Binder} {init : Option Expr} {ty : Ty} :
    (Decl.variable b init).HasType names D ty ↔
      ∃ s, Scalar.ofName? b.type.name = some s ∧ .scalar s = ty ∧ ∀ e, init = some e → HasType names D e ty := by
  constructor
  · rintro ⟨hd, hi⟩
    obtain ⟨s, hs, rfl⟩ := Option.map_eq_some_iff.1 hd
    exact ⟨s, hs, rfl, hi⟩
  · rintro ⟨s, hs, rfl, hi⟩
    exact ⟨Option.map_eq_some_iff.2 ⟨s, hs, rfl⟩, hi⟩

theorem types_typeBinder (hn : Numbered E D) {b : Binder} {init : Option Expr} (hD : Decl.variable b init ∈ D)
    (hE : ∀ x ∈ Expr.subsOption init, x ∈ E) (hu : Bound names D old (Expr.usesOption init)) :
    Types names E D (typeBinder names b init)
      (fun _ => Typable names D (Expr.subsOption init) [.variable b init]) old
      (b.site.id :: Expr.nodesOption init) := by
  have htypable : Typable names D (Expr.subsOption init) [.variable b init] ↔
      ∃ s, Scalar.ofName? b.type.name = some s ∧ ∀ e, init = some e → HasType names D e (.scalar s) := by
    constructor
    · intro h
      obtain ⟨ty, hty⟩ := h.decl _ List.mem_cons_self
      obtain ⟨s, hs, rfl, hi⟩ := hasType_variable.1 hty
      exact ⟨s, hs, hi⟩
    · rintro ⟨s, hs, hi⟩
      refine ⟨fun x hx => ?_, fun d hd => ?_⟩
      · cases init with
        | none => cases hx
        | some e => exact (hi e rfl).subs x hx
      · obtain rfl := List.mem_singleton.1 hd
        exact ⟨_, hasType_variable.2 ⟨s, hs, rfl, hi⟩⟩
  cases init with
  | none =>
    have hrec : ∀ s, Scalar.ofName? b.type.name = some s → NodeType names E D b.site.id (.scalar s) :=
      fun s hs => .decl hD (hasType_variable.2 ⟨s, hs, rfl, by simp⟩)
    refine ((types_scalarOf b.type).bind fun s hs => (types_record (hrec s hs)).next (Types.pure ())).congr
      (fun _ => htypable.trans ?_) fun _ hi => hi
    simp
  | some e =>
    have hrec : ∀ s, Scalar.ofName? b.type.name = some s → HasType names D e (.scalar s) →
        NodeType names E D b.site.id (.scalar s) :=
      fun s hs he => .decl hD (hasType_variable.2 ⟨s, hs, rfl, fun x hx => by cases hx; exact he⟩)
    refine ((types_scalarOf b.type).bind fun s hs => (types_typeExpr hn hE hu).bind fun found hf =>
      Types.guard (p := found ≠ .scalar s) fun heq => (types_record (hrec s hs (Decidable.not_not.1 heq ▸ hf))).next (Types.pure ())).congr
      (fun _ => htypable.trans ?_) (by simp [Expr.nodesOption])
    simp

theorem types_typeArray {b : Binder} {n : ArrayLength} (hD : Decl.array b n ∈ D) :
    Types names E D (typeArray b n) (fun _ => Typable names D [] [.array b n]) old [b.site.id, n.site.id] := by
  have hrec : ∀ s, Scalar.ofName? b.type.name = some s →
      NodeType names E D b.site.id (.array s n.value.toInt.natAbs) :=
    fun s hs => .decl hD ⟨Option.map_eq_some_iff.2 ⟨s, hs, rfl⟩, by simp [Decl.init?]⟩
  refine ((types_scalarOf b.type).bind fun s hs => (types_record (.length hD rfl)).next
    ((types_record (hrec s hs)).next (Types.pure ()))).congr (fun _ => ?_) (by simp)
  constructor
  · intro h
    obtain ⟨ty, hty, -⟩ := h.decl _ List.mem_cons_self
    obtain ⟨s, hs, -⟩ := Option.map_eq_some_iff.1 hty
    exact ⟨s, hs, ⟨_, rfl⟩, ⟨_, rfl⟩, rfl⟩
  · rintro ⟨s, hs, -⟩
    refine ⟨by simp, fun d hd => ?_⟩
    obtain rfl := List.mem_singleton.1 hd
    exact ⟨_, Option.map_eq_some_iff.2 ⟨s, hs, rfl⟩, by simp [Decl.init?]⟩

/-- Declarations that have their types already. -/
def Settled (D : List Decl) (old : List NodeId) (scopes : List (List Binder)) : Prop :=
  ∀ scope ∈ scopes, ∀ b ∈ scope, b.site.id ∈ old ∧ ∃ d ∈ D, d.binder = b

/-- A use refers to a declaration in one of the scopes around it. -/
def Resolved (names : Names) (around : List (List Binder)) (u : Use) : Prop :=
  ∃ scope ∈ around, ∃ b ∈ scope, names.symbols.get? u.id = some b.site.id

theorem Settled.mono {old' : List NodeId} {ds : List (List Binder)} (h : Settled D old ds)
    (ho : ∀ i ∈ old, i ∈ old') : Settled D old' ds :=
  fun scope hs b hb => (h scope hs b hb).imp_left (ho _)

theorem Settled.enter {ds : List (List Binder)} (h : Settled D old ds) : Settled D old ([] :: ds) := by
  intro scope hs b hb
  rcases List.mem_cons.1 hs with rfl | hs
  · cases hb
  · exact h scope hs b hb

/-- A statement adds its declarations to the innermost scope. -/
theorem Settled.declare {d : List Binder} {ds : List (List Binder)} {new : List NodeId} {x : Stmt}
    (h : Settled D old (d :: ds)) (hD : ∀ c ∈ x.decls, c ∈ D) (hnew : ∀ b ∈ x.declares, b.site.id ∈ new) :
    Settled D (new ++ old) ((d ++ x.declares) :: ds) := by
  intro scope hs b hb
  rcases List.mem_cons.1 hs with rfl | hs
  · rcases List.mem_append.1 hb with hb | hb
    · exact (h d List.mem_cons_self b hb).imp_left (List.mem_append_right _)
    · obtain ⟨c, hc, hcb⟩ := Stmt.mem_decls_of_mem_declares hb
      exact ⟨List.mem_append_left _ (hnew b hb), c, hD c hc, hcb⟩
  · exact (h scope (List.mem_cons_of_mem _ hs) b hb).imp_left (List.mem_append_right _)

theorem Settled.bound {ds : List (List Binder)} {us : List Use} (h : Settled D old ds)
    (hr : ∀ u ∈ us, Resolved names ds u) : Bound names D old us := by
  intro u hu
  obtain ⟨scope, hs, b, hb, hget⟩ := hr u hu
  obtain ⟨hold, d, hd, rfl⟩ := h scope hs b hb
  exact ⟨d, hd, hget, hold⟩

mutual

/-- **A statement is typed by the rules**, if all that is declared in front of it has its type already. -/
theorem types_typeStmt (hn : Numbered E D) {old : List NodeId} {ds : List (List Binder)} {x : Stmt}
    (hE : ∀ e ∈ x.exprs, e ∈ E) (hD : ∀ c ∈ x.decls, c ∈ D) (hds : Settled D old ds)
    (hr : ∀ around u, x.Uses ds around u → Resolved names around u) :
    Types names E D (typeStmt names x) (fun _ => Typable names D x.exprs x.decls) old x.nodes := by
  match x with
  | .empty _ => exact (Types.pure ()).congr (fun _ => iff_of_true typable_nil rfl) fun _ hi => hi
  | .ite s c t none =>
    have hc := types_typeExpr hn (fun e he => hE e (List.mem_append_left _ he))
      (hds.bound fun u hu => hr ds u (.condition hu))
    have ht := types_typeStmt hn (x := t) (fun e he => hE e (List.mem_append_right _ he)) hD
      (hds.enter.mono fun _ hi => List.mem_append_right c.nodes hi) fun a u hu => hr a u (.thenBranch hu)
    refine (hc.next ht).congr (fun _ => ?_) (by simp [Stmt.nodes, or_comm])
    exact (typable_append _ _ [] _).trans (and_congr_left' typable_subs)
  | .ite s c t (some e) =>
    have hc := types_typeExpr hn (fun e he => hE e (List.mem_append_left _ he))
      (hds.bound fun u hu => hr ds u (.condition hu))
    have ht := types_typeStmt hn (x := t)
      (fun y hy => hE y (List.mem_append_right _ (List.mem_append_left _ hy)))
      (fun y hy => hD y (List.mem_append_left _ hy))
      (hds.enter.mono fun _ hi => List.mem_append_right c.nodes hi) fun a u hu => hr a u (.thenBranch hu)
    have he := types_typeStmt hn (x := e)
      (fun y hy => hE y (List.mem_append_right _ (List.mem_append_right _ hy)))
      (fun y hy => hD y (List.mem_append_right _ hy))
      (hds.enter.mono fun _ hi => List.mem_append_right t.nodes (List.mem_append_right c.nodes hi))
      fun a u hu => hr a u (.elseBranch hu)
    refine (hc.next (ht.next he)).congr (fun _ => ?_) (by simp [Stmt.nodes, or_comm, or_assoc])
    refine (typable_append _ _ [] _).trans (and_congr typable_subs ?_)
    exact (typable_append _ _ t.decls e.decls).trans (and_congr_left' (exists_const Unit).symm)
  | .loop s c b =>
    have hc := types_typeExpr hn (fun e he => hE e (List.mem_append_left _ he))
      (hds.bound fun u hu => hr ds u (.guard hu))
    have hb := types_typeStmt hn (x := b) (fun e he => hE e (List.mem_append_right _ he)) hD
      (hds.enter.mono fun _ hi => List.mem_append_right c.nodes hi) fun a u hu => hr a u (.body hu)
    refine (hc.next hb).congr (fun _ => ?_) (by simp [Stmt.nodes, or_comm])
    exact (typable_append _ _ [] _).trans (and_congr_left' typable_subs)
  | .ret s v =>
    refine types_typeOption hn hE (hds.bound fun u hu => hr ds u ?_)
    cases v with
    | none => cases hu
    | some e => exact .ret hu
  | .expr s e => exact types_typeOption (o := some e) hn hE (hds.bound fun u hu => hr ds u (.expr hu))
  | .decl b init =>
    refine types_typeBinder hn (hD _ List.mem_cons_self) hE (hds.bound fun u hu => hr ds u ?_)
    cases init with
    | none => cases hu
    | some e => exact .init hu
  | .array b n => exact types_typeArray (hD _ List.mem_cons_self)
  | .block s body => exact types_typeStmts hn hE hD hds.enter fun a u hu => hr a u (.block hu)

theorem types_typeStmts (hn : Numbered E D) {old : List NodeId} {d : List Binder} {ds : List (List Binder)}
    {xs : List Stmt} (hE : ∀ e ∈ Stmt.exprsAll xs, e ∈ E) (hD : ∀ c ∈ Stmt.declsAll xs, c ∈ D)
    (hds : Settled D old (d :: ds)) (hr : ∀ around u, Stmt.UsesIn (d :: ds) xs around u → Resolved names around u) :
    Types names E D (typeStmts names xs) (fun _ => Typable names D (Stmt.exprsAll xs) (Stmt.declsAll xs)) old
      (Stmt.nodesList xs) := by
  match xs with
  | [] => exact (Types.pure ()).congr (fun _ => iff_of_true typable_nil rfl) fun _ hi => hi
  | x :: xs =>
    have hx := types_typeStmt hn (x := x) (fun e he => hE e (List.mem_append_left _ he))
      (fun c hc => hD c (List.mem_append_left _ hc)) hds fun a u hu => hr a u (.here hu)
    have hxs : Types names E D (typeStmts names xs) _ _ _ := types_typeStmts hn (fun e he => hE e (List.mem_append_right _ he))
      (fun c hc => hD c (List.mem_append_right _ hc))
      (hds.declare (fun c hc => hD c (List.mem_append_left _ hc)) fun _ hb => Stmt.mem_nodes_of_mem_declares hb)
      fun a u hu => hr a u (.later hu)
    refine (hx.next hxs).congr (fun _ => ?_) (by simp [Stmt.nodesList, or_comm])
    exact (typable_append ..).trans (and_congr_left' (exists_const Unit).symm)

end

theorem types_typeParams (hn : Numbered E D) {bs : List Binder} (hD : ∀ b ∈ bs, Decl.variable b none ∈ D) :
    Types names E D (typeParams names bs) (fun _ => Typable names D [] (bs.map (.variable · none))) old
      (bs.map (·.site.id)) := by
  induction bs generalizing old with
  | nil => exact (Types.pure ()).congr (fun _ => iff_of_true typable_nil rfl) fun _ hi => hi
  | cons b bs ih =>
    have hb : Types names E D (typeBinder names b none) _ old [b.site.id] :=
      types_typeBinder hn (hD b List.mem_cons_self) (by simp [Expr.subsOption]) (by simp [Bound, Expr.usesOption])
    have hbs : Types names E D (typeParams names bs) _ ([b.site.id] ++ old) _ :=
      ih fun c hc => hD c (List.mem_cons_of_mem _ hc)
    refine (hb.next hbs).congr (fun _ => ?_) (by simp [or_comm])
    exact (typable_append [] [] [.variable b none] _).trans (and_congr_left' (exists_const Unit).symm)

theorem types_typeFunction (hn : Numbered E D) {f : Func} (hE : ∀ e ∈ f.exprs, e ∈ E) (hD : ∀ d ∈ f.decls, d ∈ D)
    (hr : ∀ around u, f.Uses around u → Resolved names around u) :
    Types names E D (typeFunction names f) (fun _ => Typable names D f.exprs f.decls) old f.nodes := by
  have hparams : ∀ b ∈ f.params, Decl.variable b none ∈ D :=
    fun b hb => hD _ (List.mem_append_left _ (List.mem_map_of_mem hb))
  have hsettled : Settled D (f.params.map (·.site.id) ++ old) [[], f.params] := by
    intro scope hs b hb
    rcases List.mem_pair.1 hs with rfl | rfl
    · cases hb
    · exact ⟨List.mem_append_left _ (List.mem_map_of_mem hb), _, hparams b hb, rfl⟩
  have hbody := types_typeStmts hn hE (fun d hd => hD d (List.mem_append_right _ hd)) hsettled hr
  refine ((types_typeParams hn hparams).next hbody).congr (fun _ => ?_) (by simp [Func.nodes, or_comm])
  exact (typable_append [] ..).trans (and_congr_left' (exists_const Unit).symm)

/-- **Functions are typed by the rules.** -/
theorem types_typeProgram (hn : Numbered E D) {fs : List Func} (hE : ∀ e ∈ fs.flatMap Func.exprs, e ∈ E)
    (hD : ∀ d ∈ fs.flatMap Func.decls, d ∈ D)
    (hr : ∀ f ∈ fs, ∀ around u, f.Uses around u → Resolved names around u) :
    Types names E D (typeProgram names fs)
      (fun _ => Typable names D (fs.flatMap Func.exprs) (fs.flatMap Func.decls)) old (fs.flatMap Func.nodes) := by
  induction fs generalizing old with
  | nil => exact (Types.pure ()).congr (fun _ => iff_of_true typable_nil rfl) fun _ hi => hi
  | cons f fs ih =>
    simp only [List.flatMap_cons, List.mem_append] at hE hD
    have hf : Types names E D (typeFunction names f) _ old f.nodes := types_typeFunction hn (fun e he => hE e (.inl he)) (fun d hd => hD d (.inl hd))
      (hr f List.mem_cons_self)
    have hfs : Types names E D (typeProgram names fs) _ (f.nodes ++ old) _ := ih (fun e he => hE e (.inr he)) (fun d hd => hD d (.inr hd))
      fun g hg => hr g (List.mem_cons_of_mem _ hg)
    refine (hf.next hfs).congr (fun _ => ?_) (by simp [or_comm])
    simp only [List.flatMap_cons]
    exact (typable_append ..).trans (and_congr_left' (exists_const Unit).symm)

end Passes

/-! ## Programs -/

section Programs

variable {source : String} {p : Program} {names : Names}

/-- The uses of a parsed program refer to declarations in front of them. -/
theorem resolved_uses (h : parseProgram source = .ok p)
    (hs : (resolve p.functions).run .empty = (.ok (), names.symbols)) :
    ∀ f ∈ p.functions, ∀ around u, f.Uses around u → Resolved names around u := by
  intro f hf around u hu
  obtain ⟨b, hb, hget⟩ :=
    (binds_resolve p.functions).bound hs (nodup_uses (nodup_nodes_of_parseProgram h)) around u ⟨f, hf, hu⟩
  obtain ⟨-, scope, hscope, hmem⟩ := hb.mem
  exact ⟨scope, hscope, b, hmem, hget⟩

theorem types_program (h : parseProgram source = .ok p)
    (hs : (resolve p.functions).run .empty = (.ok (), names.symbols)) :
    Types names p.exprs p.decls (typeProgram names p.functions)
      (fun _ => Typable names p.decls p.exprs p.decls) [] (p.functions.flatMap Func.nodes) :=
  types_typeProgram (numbered_of_parseProgram h) (fun _ he => he) (fun _ hd => hd) (resolved_uses h hs)

theorem correct_empty {E : List Expr} {D : List Decl} : Correct names E D [] .empty := ⟨by simp, by simp⟩

theorem Program.mem_nodes {i : NodeId} : i ∈ p.functions.flatMap Func.nodes ↔ (∃ e ∈ p.exprs, e.id = i) ∨
    (∃ d ∈ p.decls, d.id = i) ∨ ∃ d ∈ p.decls, ∃ n, d.length? = some n ∧ n.site.id = i := by
  rw [p.nodes_perm.mem_iff, List.mem_append, List.mem_map, List.mem_flatMap]
  simp only [Decl.mem_nodes, and_or_left, exists_or]

section Table

variable {t : TypeTable} (h : parseProgram source = .ok p)
  (hs : (resolve p.functions).run .empty = (.ok (), names.symbols))
  (ht : (typeProgram names p.functions).run .empty = (.ok (), t))
include h hs ht

theorem nodeType_of_mem {i : NodeId} (hi : i ∈ p.functions.flatMap Func.nodes) :
    ∃ ty, t.get? i = some ty ∧ NodeType names p.exprs p.decls i ty := by
  have hc := ((types_program h hs).sound correct_empty ht).2
  obtain ⟨ty, hty⟩ := Option.isSome_iff_exists.1 (hc.known i (List.mem_append_left _ hi))
  exact ⟨ty, hty, hc.right i ty hty⟩

theorem type_of_expr {e : Expr} (he : e ∈ p.exprs) : ∃ ty, t.get? e.id = some ty ∧ HasType names p.decls e ty := by
  obtain ⟨ty, hget, hty⟩ := nodeType_of_mem h hs ht (Program.mem_nodes.2 (.inl ⟨e, he, rfl⟩))
  exact ⟨ty, hget, (numbered_of_parseProgram h).hasType_of_nodeType he hty⟩

theorem type_of_decl {d : Decl} (hd : d ∈ p.decls) :
    ∃ ty, t.get? d.id = some ty ∧ d.HasType names p.decls ty := by
  obtain ⟨ty, hget, hty⟩ := nodeType_of_mem h hs ht (Program.mem_nodes.2 (.inr (.inl ⟨d, hd, rfl⟩)))
  exact ⟨ty, hget, (numbered_of_parseProgram h).declHasType_of_nodeType hd hty⟩

end Table

/-- **Typing follows the rules.** If the functions of a program can be declared and its uses be resolved, then
typing succeeds exactly when every declaration and every expression has a type by the rules, where signatures
are those that the functions of the program and of the runtime have. What it then records is the type of each
expression and each declaration and `int` for the length of an array, and nothing for any other node. -/
theorem typed_by_rules (h : parseProgram source = .ok p)
    (hf : (declareFunctions p.functions).run .runtime = (.ok (), names.functions))
    (hs : (resolve p.functions).run .empty = (.ok (), names.symbols)) :
    (∀ n s, names.functions.get? n = some s ↔
      FunctionTable.runtime.get? n = some s ∨ ∃ f ∈ p.functions, f.name.name = n ∧ f.Signs s) ∧
    ((∃ t, (typeProgram names p.functions).run .empty = (.ok (), t)) ↔
      (∀ d ∈ p.decls, ∃ ty, d.HasType names p.decls ty) ∧ ∀ e ∈ p.exprs, ∃ ty, HasType names p.decls e ty) ∧
    ∀ t, (typeProgram names p.functions).run .empty = (.ok (), t) →
      (∀ i, (t.get? i).isSome = true ↔ (∃ e ∈ p.exprs, e.id = i) ∨ (∃ d ∈ p.decls, d.id = i) ∨
        ∃ d ∈ p.decls, ∃ n, d.length? = some n ∧ n.site.id = i) ∧
      (∀ i ∈ p.bare, t.get? i = none) ∧
      (∀ e ∈ p.exprs, ∀ ty, t.get? e.id = some ty ↔ HasType names p.decls e ty) ∧
      (∀ d ∈ p.decls, ∀ ty, t.get? d.id = some ty ↔ d.HasType names p.decls ty) ∧
      ∀ d ∈ p.decls, ∀ n, d.length? = some n → t.get? n.site.id = some .int := by
  have hnum := numbered_of_parseProgram h
  have hall := types_program h hs
  refine ⟨(declared_of_declareFunctions hf).get?, ⟨?_, ?_⟩, fun t ht => ?_⟩
  · rintro ⟨t, ht⟩
    have htyp := (hall.sound correct_empty ht).1
    exact ⟨htyp.decl, htyp.expr⟩
  · rintro ⟨hd, he⟩
    exact hall.success (v := ()) correct_empty ⟨he, hd⟩
  have hother := (typeProgram_eq_ok ht).1
  refine ⟨fun i => Iff.trans ⟨fun hi => ?_, fun hi => ?_⟩ Program.mem_nodes, ?bare, ?exprs, ?decls, ?lengths⟩
  · by_contra hno
    rw [hother i hno] at hi
    cases hi
  · obtain ⟨ty, hty, -⟩ := nodeType_of_mem h hs ht hi
    rw [hty]
    rfl
  case bare =>
    intro i hi
    exact hother i fun hmem => (List.nodup_append.1 (nodup_numbers_of_parseProgram h)).2.2 i hi i hmem rfl
  case exprs =>
    intro e he ty
    obtain ⟨ty', hget, hty'⟩ := type_of_expr h hs ht he
    rw [hget, Option.some.injEq]
    exact ⟨fun heq => heq ▸ hty', fun hty => hty.unique (fun _ hd _ hd' => hnum.decl_id_eq hd hd') hty'⟩
  case decls =>
    intro d hd ty
    obtain ⟨ty', hget, hty'⟩ := type_of_decl h hs ht hd
    rw [hget, Option.some.injEq]
    exact ⟨fun heq => heq ▸ hty', fun hty => Option.some.inj (hty'.declared.symm.trans hty.declared)⟩
  case lengths =>
    intro d hd n hn
    obtain ⟨ty, hget, hty⟩ := nodeType_of_mem h hs ht (Program.mem_nodes.2 (.inr (.inr ⟨d, hd, n, hn, rfl⟩)))
    rw [hget, hnum.int_of_nodeType hd hn hty]

end Programs

section Sample

open MicroC.Parser

/-- A parameter and a variable, and a use of either. -/
theorem typed_by_rules_shadowing : ∃ (p : Program) (names : Names) (t : TypeTable),
    parseProgram shadowingSource = .ok p ∧ (declareFunctions p.functions).run .runtime = (.ok (), names.functions) ∧
    (resolve p.functions).run .empty = (.ok (), names.symbols) ∧
    (typeProgram names p.functions).run .empty = (.ok (), t) ∧ p.functions.map (·.uses.length) = [2] ∧
    ∀ e ∈ p.exprs, ∃ ty, HasType names p.decls e ty ∧ t.get? e.id = some ty := by
  obtain ⟨fs, u, hfs, hdone, -, huses, hok⟩ := functions_shadowing
  obtain ⟨site, hparse⟩ : ∃ site, parseProgram shadowingSource = .ok ⟨site, fs⟩ :=
    parseProgram_of_yieldsFuncs (by rw [scan_shadowing]) (by rw [scan_shadowing]; exact hfs) hdone
  cases ha : analyze .runtime ⟨default, fs⟩ with
  | error e =>
    rw [ha] at hok
    cases hok
  | ok a =>
    obtain ⟨hf, hs, ht⟩ := analyze_eq_ok.1 ha
    obtain ⟨-, htypable, hexact⟩ : _ ∧ ((∃ t, (typeProgram a.names fs).run .empty = (.ok (), t)) ↔ _) ∧ _ :=
      typed_by_rules hparse hf hs
    obtain ⟨-, -, hexprs, -⟩ := hexact a.types ht
    refine ⟨⟨site, fs⟩, a.names, a.types, hparse, hf, hs, ht, huses, fun e he => ?_⟩
    obtain ⟨ty, hty⟩ := (htypable.1 ⟨a.types, ht⟩).2 e he
    exact ⟨ty, hty, (hexprs e he ty).2 hty⟩

end Sample

end MicroC
