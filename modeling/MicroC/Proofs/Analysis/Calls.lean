import MicroC.Analysis
import MicroC.Machine.Host
import MicroC.Proofs.Parser.Numbering

/-!
# Calls in analysed programs

An analysed program calls only functions that exist, with as many arguments as they have parameters, and
the tables say so at every call. Nothing that is recorded later changes this, since no two nodes share a
number.

* `Pass.bind_eq_ok`: a pass succeeds exactly when its parts do.
* `Declared`: the functions in a table are those of a program and of the runtime.
* `Expr.Called`, `Stmt.Called`: the tables agree with the calls of an expression or a statement.
* **`called_of_analyze`**: in an analysed program they all do.
-/

namespace MicroC

/-! ## Passes -/

namespace Pass

variable {τ α β : Type}

theorem run_bind (x : Pass τ α) (f : α → Pass τ β) (t : τ) :
    (x >>= f).run t =
      match x.run t with
      | (.ok a, u) => (f a).run u
      | (.error e, u) => (.error e, u) := by
  show (ExceptT.bindCont f (x.run t).1) (x.run t).2 = _
  cases x.run t with
  | mk r u => cases r <;> rfl

theorem bind_eq_ok {x : Pass τ α} {f : α → Pass τ β} {t t' : τ} {b : β} :
    (x >>= f).run t = (.ok b, t') ↔ ∃ a u, x.run t = (.ok a, u) ∧ (f a).run u = (.ok b, t') := by
  rw [run_bind]
  cases x.run t with
  | mk r u =>
    constructor
    · intro h
      cases r with
      | ok a => exact ⟨a, u, rfl, h⟩
      | error e => cases h
    · rintro ⟨a, v, heq, h⟩
      cases heq
      exact h

theorem pure_eq_ok {a b : α} {t t' : τ} :
    (pure a : Pass τ α).run t = (.ok b, t') ↔ a = b ∧ t = t' := by
  constructor
  · intro h
    cases h
    exact ⟨rfl, rfl⟩
  · rintro ⟨rfl, rfl⟩
    rfl

theorem reject_ne_ok {fault : SemanticFault} {span : Span} {t t' : τ} {b : α} :
    (reject fault span : Pass τ α).run t ≠ (.ok b, t') := nofun

theorem guard_eq_ok {p : Prop} [Decidable p] {fault : SemanticFault} {span : Span}
    {f : Unit → Pass τ α} {t t' : τ} {a : α} :
    (if p then reject fault span >>= f else f ()).run t = (.ok a, t') ↔
      ¬ p ∧ (f ()).run t = (.ok a, t') := by
  by_cases hp : p
  · rw [if_pos hp, bind_eq_ok]
    constructor
    · rintro ⟨_, _, h, -⟩
      exact absurd h reject_ne_ok
    · exact fun h => absurd hp h.1
  · rw [if_neg hp]
    simp [hp]

end Pass

open Pass

/-- The type that a name spells. -/
def Ident.ty? (n : Ident) : Option Ty := (Scalar.ofName? n.name).map .scalar

theorem scalarOf_eq_ok {τ : Type} {n : Ident} {s : Scalar} {t t' : τ}
    (h : (scalarOf n : Pass τ Scalar).run t = (.ok s, t')) : n.ty? = some (.scalar s) ∧ t = t' := by
  unfold scalarOf at h
  split at h
  · next hs =>
    obtain ⟨rfl, ht⟩ := pure_eq_ok.1 h
    exact ⟨by rw [Ident.ty?, hs, Option.map_some], ht⟩
  · exact absurd h reject_ne_ok

/-! ## Signatures -/

/-- The signature of a function has the types that the function names. -/
structure Func.Signs (f : Func) (s : Signature) : Prop where
  name : s.name = f.name.name
  span : s.span = some f.name.span
  params : f.params.map (·.type.ty?) = s.params.map some
  returns : f.returns.ty? = some s.returns

namespace Func.Signs

variable {f : Func} {s s' : Signature}

theorem length_eq (h : f.Signs s) : s.params.length = f.params.length := by
  have := congrArg List.length h.params
  rwa [List.length_map, List.length_map, eq_comm] at this

theorem unique (h : f.Signs s) (h' : f.Signs s') : s' = s := by
  have hparams : s'.params = s.params :=
    (List.map_inj_right fun _ _ => Option.some.inj).1 (h'.params.symm.trans h.params)
  have hreturns := Option.some.inj (h'.returns.symm.trans h.returns)
  obtain ⟨n, ps, r, sp⟩ := s
  obtain ⟨n', ps', r', sp'⟩ := s'
  cases h.name
  cases h'.name
  cases h.span
  cases h'.span
  cases hparams
  cases hreturns
  rfl

end Func.Signs

/-- The functions in a table are some functions of a program and those of another table. -/
structure Declared (old : FunctionTable) (fs : List Func) (new : FunctionTable) : Prop where
  names : (fs.map (·.name.name)).Nodup
  fresh : ∀ f ∈ fs, old.get? f.name.name = none
  get? : ∀ n s, new.get? n = some s ↔ old.get? n = some s ∨ ∃ f ∈ fs, f.name.name = n ∧ f.Signs s

theorem scalarTypes_eq_ok {ns : List Ident} {tys : List Ty} {t t' : FunctionTable}
    (h : (scalarTypes ns).run t = (.ok tys, t')) : ns.map Ident.ty? = tys.map some ∧ t = t' := by
  induction ns generalizing tys t with
  | nil =>
    obtain ⟨rfl, rfl⟩ := pure_eq_ok.1 h
    exact ⟨rfl, rfl⟩
  | cons n ns ih =>
    obtain ⟨s, u, hs, h⟩ := bind_eq_ok.1 h
    obtain ⟨ss, v, hss, h⟩ := bind_eq_ok.1 h
    obtain ⟨rfl, rfl⟩ := pure_eq_ok.1 h
    obtain ⟨hty, rfl⟩ := scalarOf_eq_ok hs
    obtain ⟨htys, rfl⟩ := ih hss
    exact ⟨by rw [List.map_cons, List.map_cons, hty, htys], rfl⟩

/-- What adding a function to a table does. -/
theorem declareFunction_eq_ok {f : Func} {t t' : FunctionTable}
    (h : (declareFunction f).run t = (.ok (), t')) :
    t.get? f.name.name = none ∧ ∃ s : Signature, f.Signs s ∧ t' = t.insert f.name.name s := by
  obtain ⟨params, u, hparams, h⟩ := bind_eq_ok.1 h
  obtain ⟨returns, v, hreturns, h⟩ := bind_eq_ok.1 h
  obtain ⟨hps, rfl⟩ := scalarTypes_eq_ok hparams
  obtain ⟨hty, rfl⟩ := scalarOf_eq_ok hreturns
  obtain ⟨t₀, w, hget, h⟩ := bind_eq_ok.1 h
  cases hget
  rw [FunctionTable.declare] at h
  by_cases hc : t.contains f.name.name
  · rw [if_pos hc] at h
    cases h
  · rw [if_neg hc] at h
    cases h
    rw [List.map_map] at hps
    refine ⟨by simpa [Table.contains] using hc, ⟨f.name.name, params, .scalar returns, some f.name.span⟩, ?_, rfl⟩
    exact ⟨rfl, rfl, hps, hty⟩

theorem declared_of_declareFunctions {fs : List Func} {t t' : FunctionTable}
    (h : (declareFunctions fs).run t = (.ok (), t')) : Declared t fs t' := by
  induction fs generalizing t with
  | nil =>
    obtain ⟨-, rfl⟩ := pure_eq_ok.1 h
    exact ⟨List.nodup_nil, nofun, fun n s => by simp⟩
  | cons f fs ih =>
    obtain ⟨_, u, hf, h⟩ := bind_eq_ok.1 h
    obtain ⟨hnone, s, hsigns, rfl⟩ := declareFunction_eq_ok hf
    have hrest := ih h
    have hne : ∀ g ∈ fs, g.name.name ≠ f.name.name := by
      intro g hg heq
      have := hrest.fresh g hg
      rw [heq, Table.get?_insert_self] at this
      cases this
    refine ⟨List.nodup_cons.2 ⟨fun hmem => ?_, hrest.names⟩, fun g hg => ?_, fun n sig => ?_⟩
    · obtain ⟨g, hg, heq⟩ := List.mem_map.1 hmem
      exact hne g hg heq
    · rcases List.mem_cons.1 hg with rfl | hg
      · exact hnone
      · have := hrest.fresh g hg
        rwa [Table.get?_insert, if_neg (hne g hg)] at this
    · simp only [hrest.get?, Table.get?_insert, List.mem_cons, or_and_right, exists_or, exists_eq_left, ← or_assoc]
      refine or_congr_left ?_
      by_cases heq : n = f.name.name
      · rw [if_pos heq, heq, hnone, Option.some.injEq]
        exact ⟨fun hs => .inr ⟨rfl, hs ▸ hsigns⟩, fun hs => hs.elim nofun fun hs => hs.2.unique hsigns⟩
      · rw [if_neg heq]
        exact ⟨.inl, fun hs => hs.resolve_right fun hs => heq hs.1.symm⟩

/-- The functions of the runtime that only deal with integers are those the machine has. -/
theorem intrinsic_of_runtime {n : String} {s : Signature} (h : FunctionTable.runtime.get? n = some s) :
    (∃ i, Intrinsic.ofName? n = some i ∧ i.arity = s.params.length) ∨ s.returns = .float ∨
      ∃ ty ∈ s.params, ty = .float ∨ ty = .string := by
  simp only [FunctionTable.runtime, List.foldl_cons, List.foldl_nil, Table.get?_insert,
    Table.get?_empty] at h
  repeat' split at h
  all_goals cases h
  all_goals first
    | (subst_vars; exact .inl ⟨_, rfl, rfl⟩)
    | simp

theorem runtime_of_intrinsic {n : String} {i : Intrinsic} (h : Intrinsic.ofName? n = some i) :
    FunctionTable.runtime.get? n ≠ none := by
  unfold Intrinsic.ofName? at h
  split at h
  any_goals cases h
  all_goals simp [FunctionTable.runtime, Table.get?_insert]

/-! ## Calls -/

section Called

variable (functions : FunctionTable) (types : TypeTable)

mutual

/-- The tables agree with the calls of an expression. -/
def Expr.Called : Expr → Prop
  | .int .. | .float .. | .string .. | .var .. => True
  | .index _ _ i => i.Called
  | .call site n args =>
    (∃ s, functions.get? n.name = some s ∧ types.get? site.id = some s.returns ∧
      args.map (types.get? ·.id) = s.params.map some) ∧ Expr.CalledAll args
  | .unary _ _ _ x => x.Called
  | .binary _ _ _ x y => x.Called ∧ y.Called

/-- The tables agree with the calls of expressions. -/
def Expr.CalledAll : List Expr → Prop
  | [] => True
  | e :: es => e.Called ∧ Expr.CalledAll es

end

/-- The tables agree with the calls of an expression that may be missing. -/
def Expr.CalledOption : Option Expr → Prop
  | none => True
  | some e => e.Called functions types

mutual

/-- The tables agree with the calls of a statement. -/
def Stmt.Called : Stmt → Prop
  | .empty _ | .array .. => True
  | .ite _ c t none => c.Called functions types ∧ t.Called
  | .ite _ c t (some e) => c.Called functions types ∧ t.Called ∧ e.Called
  | .loop _ c b => c.Called functions types ∧ b.Called
  | .ret _ v => Expr.CalledOption functions types v
  | .expr _ e => e.Called functions types
  | .decl _ init => Expr.CalledOption functions types init
  | .block _ body => Stmt.CalledAll body

/-- The tables agree with the calls of statements. -/
def Stmt.CalledAll : List Stmt → Prop
  | [] => True
  | s :: ss => s.Called ∧ Stmt.CalledAll ss

end

end Called

/-- Two tables agree on some nodes. -/
def SameOn (ns : List NodeId) (t t' : TypeTable) : Prop := ∀ n ∈ ns, t'.get? n = t.get? n

theorem SameOn.mono {ms ns : List NodeId} {t t' : TypeTable} (h : SameOn ns t t') (hsub : ∀ n ∈ ms, n ∈ ns) :
    SameOn ms t t' := fun n hn => h n (hsub n hn)

theorem Expr.id_mem_nodesList {e : Expr} {es : List Expr} (h : e ∈ es) : e.id ∈ Expr.nodesList es := by
  induction es with
  | nil => cases h
  | cons a es ih =>
    rcases List.mem_cons.1 h with rfl | h
    · exact List.mem_append_left _ e.id_mem_nodes
    · exact List.mem_append_right _ (ih h)

section Frame

variable {functions : FunctionTable} {t t' : TypeTable}

mutual

/-- Only the types of its nodes matter. -/
theorem Expr.Called.agree {e : Expr} (h : e.Called functions t) (ha : SameOn e.nodes t t') :
    e.Called functions t' := by
  match e with
  | .int .. | .float .. | .string .. | .var .. => trivial
  | .index _ _ i => exact Expr.Called.agree (e := i) h (ha.mono fun n hn => List.mem_cons_of_mem _ hn)
  | .call site n args =>
    obtain ⟨⟨s, hs, hret, hargs⟩, hall⟩ := h
    have hsub : SameOn (Expr.nodesList args) t t' := ha.mono fun n hn => List.mem_cons_of_mem _ hn
    refine ⟨⟨s, hs, ?_, ?_⟩, Expr.CalledAll.agree hall hsub⟩
    · rw [ha site.id List.mem_cons_self, hret]
    · rw [← hargs]
      exact List.map_congr_left fun e he => hsub e.id (Expr.id_mem_nodesList he)
  | .unary _ _ _ x => exact Expr.Called.agree (e := x) h (ha.mono fun n hn => List.mem_cons_of_mem _ hn)
  | .binary _ _ _ x y =>
    refine ⟨Expr.Called.agree h.1 (ha.mono fun n hn => ?_), Expr.Called.agree h.2 (ha.mono fun n hn => ?_)⟩
    · exact List.mem_cons_of_mem _ (List.mem_append_left _ hn)
    · exact List.mem_cons_of_mem _ (List.mem_append_right _ hn)

theorem Expr.CalledAll.agree {es : List Expr} (h : Expr.CalledAll functions t es)
    (ha : SameOn (Expr.nodesList es) t t') : Expr.CalledAll functions t' es := by
  match es with
  | [] => trivial
  | e :: es =>
    exact ⟨Expr.Called.agree h.1 (ha.mono fun n hn => List.mem_append_left _ hn),
      Expr.CalledAll.agree h.2 (ha.mono fun n hn => List.mem_append_right _ hn)⟩

end

theorem Expr.CalledOption.agree {o : Option Expr} (h : Expr.CalledOption functions t o)
    (ha : SameOn (Expr.nodesOption o) t t') : Expr.CalledOption functions t' o := by
  cases o with
  | none => trivial
  | some e => exact Expr.Called.agree h ha

mutual

theorem Stmt.Called.agree {s : Stmt} (h : s.Called functions t) (ha : SameOn s.nodes t t') :
    s.Called functions t' := by
  match s with
  | .empty _ | .array .. => trivial
  | .ite _ c x none =>
    exact ⟨Expr.Called.agree h.1 (ha.mono fun n hn => List.mem_append_left _ hn),
      Stmt.Called.agree h.2 (ha.mono fun n hn => List.mem_append_right _ hn)⟩
  | .ite _ c x (some y) =>
    refine ⟨Expr.Called.agree h.1 (ha.mono fun n hn => List.mem_append_left _ hn),
      Stmt.Called.agree h.2.1 (ha.mono fun n hn => ?_), Stmt.Called.agree h.2.2 (ha.mono fun n hn => ?_)⟩
    · exact List.mem_append_right _ (List.mem_append_left _ hn)
    · exact List.mem_append_right _ (List.mem_append_right _ hn)
  | .loop _ c b =>
    exact ⟨Expr.Called.agree h.1 (ha.mono fun n hn => List.mem_append_left _ hn),
      Stmt.Called.agree h.2 (ha.mono fun n hn => List.mem_append_right _ hn)⟩
  | .ret _ v => exact Expr.CalledOption.agree h ha
  | .expr _ e => exact Expr.Called.agree h ha
  | .decl _ init => exact Expr.CalledOption.agree h (ha.mono fun n hn => List.mem_cons_of_mem _ hn)
  | .block _ body => exact Stmt.CalledAll.agree h ha

theorem Stmt.CalledAll.agree {ss : List Stmt} (h : Stmt.CalledAll functions t ss)
    (ha : SameOn (Stmt.nodesList ss) t t') : Stmt.CalledAll functions t' ss := by
  match ss with
  | [] => trivial
  | s :: ss =>
    exact ⟨Stmt.Called.agree h.1 (ha.mono fun n hn => List.mem_append_left _ hn),
      Stmt.CalledAll.agree h.2 (ha.mono fun n hn => List.mem_append_right _ hn)⟩

end

end Frame

/-! ## What typing records -/

/-- Two tables differ at most at some nodes. -/
def Within (ns : List NodeId) (t t' : TypeTable) : Prop := ∀ n, n ∉ ns → t'.get? n = t.get? n

namespace Within

variable {ms ns : List NodeId} {t u v : TypeTable}

theorem refl (t : TypeTable) : Within [] t t := fun _ _ => rfl

theorem append (h : Within ms t u) (h' : Within ns u v) : Within (ms ++ ns) t v := by
  intro n hn
  rw [List.mem_append, not_or] at hn
  rw [h' n hn.2, h n hn.1]

theorem record (h : Within ns t u) (id : NodeId) (ty : Ty) : Within (id :: ns) t (u.insert id ty) := by
  intro n hn
  rw [List.mem_cons, not_or] at hn
  rw [Table.get?_insert, if_neg hn.1, h n hn.2]

theorem agree (h : Within ns t u) (hd : ∀ n ∈ ms, n ∉ ns) : SameOn ms t u := fun n hn => h n (hd n hn)

end Within

theorem not_mem_of_nodup_append {ms ns : List NodeId} (h : (ms ++ ns).Nodup) : ∀ n ∈ ms, n ∉ ns :=
  fun n hm hn => (List.nodup_append.1 h).2.2 n hm n hn rfl

section Typing

variable {names : Names} {t t' : TypeTable}

theorem record_eq_ok {id : NodeId} {ty ty' : Ty} :
    (record id ty).run t = (.ok ty', t') ↔ ty = ty' ∧ t.insert id ty = t' := by
  constructor
  · intro h
    cases h
    exact ⟨rfl, rfl⟩
  · rintro ⟨rfl, rfl⟩
    rfl

theorem declaredType_eq_ok {use : NodeId} {n : Ident} {ty : Ty}
    (h : (declaredType names use n).run t = (.ok ty, t')) : t = t' := by
  obtain ⟨t₀, u, hget, h⟩ := bind_eq_ok.1 h
  cases hget
  split at h
  · exact (pure_eq_ok.1 h).2
  · exact absurd h reject_ne_ok

theorem binaryType_eq_ok {op : BinaryOp} {span : Span} {lhs rhs ty : Ty}
    (h : (binaryType op span lhs rhs).run t = (.ok ty, t')) : t = t' := by
  unfold binaryType at h
  split at h
  · exact absurd h reject_ne_ok
  · exact (pure_eq_ok.1 h).2

theorem unaryType_eq_ok {op : UnaryOp} {span : Span} {x ty : Ty}
    (h : (unaryType op span x).run t = (.ok ty, t')) : t = t' := by
  unfold unaryType at h
  split at h
  · exact (pure_eq_ok.1 h).2
  · exact absurd h reject_ne_ok

theorem signatureOf_eq_ok {n : Ident} {given : Nat} {s : Signature}
    (h : (signatureOf names n given).run t = (.ok s, t')) :
    names.functions.get? n.name = some s ∧ given = s.params.length ∧ t = t' := by
  unfold signatureOf at h
  split at h
  · exact absurd h reject_ne_ok
  · next sig hsig =>
    split at h
    · next hlen =>
      obtain ⟨rfl, rfl⟩ := pure_eq_ok.1 h
      exact ⟨hsig, hlen, rfl⟩
    · exact absurd h reject_ne_ok

mutual

/-- **Typing an expression records the types of its nodes**, and they agree with its calls. -/
theorem typeExpr_eq_ok {e : Expr} {ty : Ty} {t t' : TypeTable}
    (h : (typeExpr names e).run t = (.ok ty, t')) :
    Within e.nodes t t' ∧ (e.nodes.Nodup → t'.get? e.id = some ty ∧ e.Called names.functions t') := by
  match e with
  | .int site v | .float site v | .string site v =>
    obtain ⟨rfl, rfl⟩ := record_eq_ok.1 h
    exact ⟨(Within.refl t).record _ _, fun _ => ⟨Table.get?_insert_self .., trivial⟩⟩
  | .var site n =>
    obtain ⟨ty', u, hd, h⟩ := bind_eq_ok.1 h
    obtain rfl := declaredType_eq_ok hd
    obtain ⟨rfl, rfl⟩ := record_eq_ok.1 h
    exact ⟨(Within.refl t).record _ _, fun _ => ⟨Table.get?_insert_self .., trivial⟩⟩
  | .index site n i =>
    obtain ⟨found, u, hi, h⟩ := bind_eq_ok.1 h
    obtain ⟨-, h⟩ := guard_eq_ok.1 h
    obtain ⟨ty', v, hd, h⟩ := bind_eq_ok.1 h
    obtain rfl := declaredType_eq_ok hd
    obtain ⟨hwithin, hon⟩ := typeExpr_eq_ok hi
    split at h
    · obtain ⟨rfl, rfl⟩ := record_eq_ok.1 h
      refine ⟨hwithin.record _ _, fun hn => ⟨Table.get?_insert_self .., ?_⟩⟩
      obtain ⟨hsite, hn⟩ := List.nodup_cons.1 hn
      exact (hon hn).2.agree
        (((Within.refl u).record _ _).agree fun m hm hin => hsite (List.mem_singleton.1 hin ▸ hm))
    · exact absurd h reject_ne_ok
  | .call site n args =>
    obtain ⟨s, u, hs, h⟩ := bind_eq_ok.1 h
    obtain ⟨hget, hlen, rfl⟩ := signatureOf_eq_ok hs
    obtain ⟨_, u, hargs, h⟩ := bind_eq_ok.1 h
    obtain ⟨rfl, rfl⟩ := record_eq_ok.1 h
    obtain ⟨hwithin, hon⟩ := typeArgs_eq_ok hargs
    refine ⟨hwithin.record _ _, fun hn => ⟨Table.get?_insert_self .., ?_⟩⟩
    obtain ⟨hsite, hn⟩ := List.nodup_cons.1 hn
    obtain ⟨htypes, hall⟩ := hon hlen hn
    have hagree : SameOn (Expr.nodesList args) u (u.insert site.id s.returns) :=
      ((Within.refl u).record _ _).agree fun m hm hin => hsite (List.mem_singleton.1 hin ▸ hm)
    refine ⟨⟨s, hget, Table.get?_insert_self .., ?_⟩, hall.agree hagree⟩
    rw [← htypes]
    exact List.map_congr_left fun e he => hagree e.id (Expr.id_mem_nodesList he)
  | .unary site op span x =>
    obtain ⟨tx, u, hx, h⟩ := bind_eq_ok.1 h
    obtain ⟨ty', v, hu, h⟩ := bind_eq_ok.1 h
    obtain rfl := unaryType_eq_ok hu
    obtain ⟨rfl, rfl⟩ := record_eq_ok.1 h
    obtain ⟨hwithin, hon⟩ := typeExpr_eq_ok hx
    refine ⟨hwithin.record _ _, fun hn => ⟨Table.get?_insert_self .., ?_⟩⟩
    obtain ⟨hsite, hn⟩ := List.nodup_cons.1 hn
    exact (hon hn).2.agree
      (((Within.refl u).record _ _).agree fun m hm hin => hsite (List.mem_singleton.1 hin ▸ hm))
  | .binary site op span x y =>
    obtain ⟨tx, u, hx, h⟩ := bind_eq_ok.1 h
    obtain ⟨ty', v, hy, h⟩ := bind_eq_ok.1 h
    obtain ⟨tb, w, hb, h⟩ := bind_eq_ok.1 h
    obtain rfl := binaryType_eq_ok hb
    obtain ⟨rfl, rfl⟩ := record_eq_ok.1 h
    obtain ⟨hwx, hx⟩ := typeExpr_eq_ok hx
    obtain ⟨hwy, hy⟩ := typeExpr_eq_ok hy
    refine ⟨(hwx.append hwy).record _ _, fun hn => ⟨Table.get?_insert_self .., ?_⟩⟩
    obtain ⟨hsite, hn⟩ := List.nodup_cons.1 hn
    rw [List.mem_append, not_or] at hsite
    obtain ⟨hnx, hny, -⟩ := List.nodup_append.1 hn
    have hrec : Within [site.id] v (v.insert site.id tb) := (Within.refl v).record _ _
    have hcx : x.Called names.functions v := (hx hnx).2.agree (hwy.agree (not_mem_of_nodup_append hn))
    refine ⟨hcx.agree (hrec.agree fun m hm hin => ?_), (hy hny).2.agree (hrec.agree fun m hm hin => ?_)⟩
    · exact hsite.1 (List.mem_singleton.1 hin ▸ hm)
    · exact hsite.2 (List.mem_singleton.1 hin ▸ hm)

theorem typeArgs_eq_ok {n : Ident} {i : Nat} {es : List Expr} {params : List Ty} {t t' : TypeTable}
    (h : (typeArgs names n i es params).run t = (.ok (), t')) :
    Within (Expr.nodesList es) t t' ∧ (es.length = params.length → (Expr.nodesList es).Nodup →
      es.map (t'.get? ·.id) = params.map some ∧ Expr.CalledAll names.functions t' es) := by
  match es, params with
  | [], params =>
    obtain ⟨-, rfl⟩ := pure_eq_ok.1 h
    refine ⟨fun _ _ => rfl, fun hlen _ => ⟨?_, trivial⟩⟩
    rw [List.length_eq_zero_iff.1 hlen.symm]
    rfl
  | e :: es, [] =>
    obtain ⟨-, rfl⟩ := pure_eq_ok.1 h
    exact ⟨fun _ _ => rfl, fun hlen _ => by cases hlen⟩
  | e :: es, ty :: params =>
    obtain ⟨given, u, he, h⟩ := bind_eq_ok.1 h
    obtain ⟨heq, h⟩ := guard_eq_ok.1 h
    obtain ⟨hwe, he⟩ := typeExpr_eq_ok he
    obtain ⟨hws, hs⟩ := typeArgs_eq_ok h
    refine ⟨hwe.append hws, fun hlen hn => ?_⟩
    obtain ⟨hne, hns, -⟩ := List.nodup_append.1 hn
    obtain ⟨htypes, hall⟩ := hs (Nat.succ.inj hlen) hns
    obtain ⟨hty, hcalled⟩ := he hne
    -- What is recorded for the other arguments leaves this one alone.
    have hagree : SameOn e.nodes u t' := hws.agree (not_mem_of_nodup_append hn)
    refine ⟨?_, hcalled.agree hagree, hall⟩
    rw [List.map_cons, List.map_cons, htypes, hagree e.id e.id_mem_nodes, hty, Decidable.not_not.1 heq]

end

theorem typeOption_eq_ok {o : Option Expr} {u : Unit} (h : (typeOption names o).run t = (.ok u, t')) :
    Within (Expr.nodesOption o) t t' ∧
      ((Expr.nodesOption o).Nodup → Expr.CalledOption names.functions t' o) := by
  cases o with
  | none =>
    obtain ⟨-, rfl⟩ := pure_eq_ok.1 h
    exact ⟨.refl t, fun _ => trivial⟩
  | some e =>
    obtain ⟨ty, u, he, h⟩ := bind_eq_ok.1 h
    obtain ⟨-, rfl⟩ := pure_eq_ok.1 h
    obtain ⟨hwithin, hon⟩ := typeExpr_eq_ok he
    exact ⟨hwithin, fun hn => (hon hn).2⟩

theorem typeBinder_eq_ok {b : Binder} {init : Option Expr} {u : Unit}
    (h : (typeBinder names b init).run t = (.ok u, t')) :
    Within (b.site.id :: Expr.nodesOption init) t t' ∧
      ((b.site.id :: Expr.nodesOption init).Nodup → Expr.CalledOption names.functions t' init) := by
  obtain ⟨s, v, hs, h⟩ := bind_eq_ok.1 h
  obtain ⟨-, rfl⟩ := scalarOf_eq_ok hs
  cases init with
  | none =>
    obtain ⟨_, v, hr, h⟩ := bind_eq_ok.1 h
    obtain ⟨-, rfl⟩ := record_eq_ok.1 hr
    obtain ⟨-, rfl⟩ := pure_eq_ok.1 h
    exact ⟨(Within.refl t).record _ _, fun _ => trivial⟩
  | some e =>
    obtain ⟨found, v, he, h⟩ := bind_eq_ok.1 h
    obtain ⟨-, h⟩ := guard_eq_ok.1 h
    obtain ⟨_, w, hr, h⟩ := bind_eq_ok.1 h
    obtain ⟨-, rfl⟩ := record_eq_ok.1 hr
    obtain ⟨-, rfl⟩ := pure_eq_ok.1 h
    obtain ⟨hwithin, hon⟩ := typeExpr_eq_ok he
    refine ⟨hwithin.record _ _, fun hn => ?_⟩
    obtain ⟨hsite, hn⟩ := List.nodup_cons.1 hn
    exact (hon hn).2.agree
      (((Within.refl v).record _ _).agree fun m hm hin => hsite (List.mem_singleton.1 hin ▸ hm))

mutual

/-- **Typing a statement records the types of its nodes**, and they agree with its calls. -/
theorem typeStmt_eq_ok {s : Stmt} {t t' : TypeTable} (h : (typeStmt names s).run t = (.ok (), t')) :
    Within s.nodes t t' ∧ (s.nodes.Nodup → s.Called names.functions t') := by
  match s with
  | .empty _ =>
    obtain ⟨-, rfl⟩ := pure_eq_ok.1 h
    exact ⟨.refl t, fun _ => trivial⟩
  | .ite _ c x none | .loop _ c x =>
    obtain ⟨_, u, hc, hx⟩ := bind_eq_ok.1 h
    obtain ⟨hwc, hc⟩ := typeExpr_eq_ok hc
    obtain ⟨hwx, hx⟩ := typeStmt_eq_ok hx
    refine ⟨hwc.append hwx, fun hn => ?_⟩
    obtain ⟨hnc, hnx, -⟩ := List.nodup_append.1 hn
    exact ⟨(hc hnc).2.agree (hwx.agree (not_mem_of_nodup_append hn)), hx hnx⟩
  | .ite _ c x (some y) =>
    obtain ⟨_, u, hc, h⟩ := bind_eq_ok.1 h
    obtain ⟨_, v, hx, hy⟩ := bind_eq_ok.1 h
    obtain ⟨hwc, hc⟩ := typeExpr_eq_ok hc
    obtain ⟨hwx, hx⟩ := typeStmt_eq_ok hx
    obtain ⟨hwy, hy⟩ := typeStmt_eq_ok hy
    refine ⟨hwc.append (hwx.append hwy), fun hn => ?_⟩
    obtain ⟨hnc, hnxy, -⟩ := List.nodup_append.1 hn
    obtain ⟨hnx, hny, -⟩ := List.nodup_append.1 hnxy
    exact ⟨(hc hnc).2.agree ((hwx.append hwy).agree (not_mem_of_nodup_append hn)),
      (hx hnx).agree (hwy.agree (not_mem_of_nodup_append hnxy)), hy hny⟩
  | .ret _ v => exact typeOption_eq_ok h
  | .expr _ e => exact typeOption_eq_ok (o := some e) h
  | .decl b init => exact typeBinder_eq_ok h
  | .array b n =>
    obtain ⟨s, u, hs, h⟩ := bind_eq_ok.1 h
    obtain ⟨-, rfl⟩ := scalarOf_eq_ok hs
    obtain ⟨_, u, hr, h⟩ := bind_eq_ok.1 h
    obtain ⟨-, rfl⟩ := record_eq_ok.1 hr
    obtain ⟨_, v, hr, h⟩ := bind_eq_ok.1 h
    obtain ⟨-, rfl⟩ := record_eq_ok.1 hr
    obtain ⟨-, rfl⟩ := pure_eq_ok.1 h
    exact ⟨((Within.refl t).record _ _).record _ _, fun _ => trivial⟩
  | .block _ body => exact typeStmts_eq_ok h

theorem typeStmts_eq_ok {ss : List Stmt} {t t' : TypeTable}
    (h : (typeStmts names ss).run t = (.ok (), t')) :
    Within (Stmt.nodesList ss) t t' ∧
      ((Stmt.nodesList ss).Nodup → Stmt.CalledAll names.functions t' ss) := by
  match ss with
  | [] =>
    obtain ⟨-, rfl⟩ := pure_eq_ok.1 h
    exact ⟨.refl t, fun _ => trivial⟩
  | s :: ss =>
    obtain ⟨_, u, hs, hss⟩ := bind_eq_ok.1 h
    obtain ⟨hw, hs⟩ := typeStmt_eq_ok hs
    obtain ⟨hws, hss⟩ := typeStmts_eq_ok hss
    refine ⟨hw.append hws, fun hn => ?_⟩
    obtain ⟨hn1, hn2, -⟩ := List.nodup_append.1 hn
    exact ⟨(hs hn1).agree (hws.agree (not_mem_of_nodup_append hn)), hss hn2⟩

end

theorem typeParams_eq_ok {bs : List Binder} {u : Unit} (h : (typeParams names bs).run t = (.ok u, t')) :
    Within (bs.map (·.site.id)) t t' := by
  induction bs generalizing t with
  | nil =>
    obtain ⟨-, rfl⟩ := pure_eq_ok.1 h
    exact .refl t
  | cons b bs ih =>
    obtain ⟨_, v, hb, h⟩ := bind_eq_ok.1 h
    exact (typeBinder_eq_ok hb).1.append (ih h)

theorem typeProgram_eq_ok {fs : List Func} {u : Unit} (h : (typeProgram names fs).run t = (.ok u, t')) :
    Within (fs.flatMap Func.nodes) t t' ∧
      ((fs.flatMap Func.nodes).Nodup → ∀ f ∈ fs, Stmt.CalledAll names.functions t' f.body) := by
  induction fs generalizing t with
  | nil =>
    obtain ⟨-, rfl⟩ := pure_eq_ok.1 h
    exact ⟨.refl t, nofun⟩
  | cons f fs ih =>
    obtain ⟨_, v, hf, h⟩ := bind_eq_ok.1 h
    obtain ⟨_, w, hp, hb⟩ := bind_eq_ok.1 hf
    obtain ⟨hw, hbody⟩ := typeStmts_eq_ok hb
    obtain ⟨hws, hall⟩ := ih h
    refine ⟨((typeParams_eq_ok hp).append hw).append hws, fun hn g hg => ?_⟩
    obtain ⟨hn1, hn2, -⟩ := List.nodup_append.1 hn
    rcases List.mem_cons.1 hg with rfl | hg
    · refine (hbody (List.nodup_append.1 hn1).2.1).agree (hws.agree fun m hm => ?_)
      exact not_mem_of_nodup_append hn m (List.mem_append_right _ hm)
    · exact hall hn2 g hg

end Typing

/-- What typing looked up. -/
def Analysis.names (a : Analysis) : Names := ⟨a.functions, a.symbols⟩

theorem analyze_eq_ok {functions : FunctionTable} {p : Program} {a : Analysis} :
    analyze functions p = .ok a ↔ (declareFunctions p.functions).run functions = (.ok (), a.functions) ∧
      (resolve p.functions).run .empty = (.ok (), a.symbols) ∧
      (typeProgram a.names p.functions).run .empty = (.ok (), a.types) := by
  constructor
  · intro h
    unfold analyze at h
    split at h
    · cases h
    · next fs hfs =>
      split at h
      · cases h
      · next symbols hsymbols =>
        split at h
        · cases h
        · next types htypes =>
          cases h
          exact ⟨hfs, hsymbols, htypes⟩
  · rintro ⟨hf, hs, ht⟩
    unfold analyze
    rw [Analysis.names] at ht
    simp only [hf, hs, ht]

/-- **In an analysed program the tables agree with all calls**, and its functions are declared once. -/
theorem called_of_analyze {functions : FunctionTable} {p : Program} {a : Analysis}
    (h : analyze functions p = .ok a) (hn : (p.functions.flatMap Func.nodes).Nodup) :
    Declared functions p.functions a.functions ∧
      ∀ f ∈ p.functions, Stmt.CalledAll a.functions a.types f.body := by
  obtain ⟨hf, -, ht⟩ := analyze_eq_ok.1 h
  exact ⟨declared_of_declareFunctions hf, (typeProgram_eq_ok ht).2 hn⟩

end MicroC
