import MicroC.Proofs.Analysis.Renumbering
import MicroC.Proofs.Analysis.Typed

/-!
# Analysis in another order

The passes of the analysis go through the functions one by one, but what they accept and what they record does not
depend on the order: a call may come before the function that it names, a variable is seen in its own function only,
and each node has an entry of its own.

* `declareFunctions_arranged`, `resolve_arranged`, `typeProgram_arranged`: the passes, one by one.
* **`analyze_arranged`**: functions in another order are analysed alike.
-/

namespace MicroC

open Pass

/-! ## Signatures -/

section Signatures

variable {fs fs' : List Func} {old t t' : FunctionTable}

theorem scalarOf_of_ty? {τ : Type} {n : Ident} {ty : Ty} (h : n.ty? = some ty) (t : τ) :
    ∃ s, ty = .scalar s ∧ (scalarOf n : Pass τ Scalar).run t = (.ok s, t) := by
  obtain ⟨s, hs, rfl⟩ := Option.map_eq_some_iff.1 h
  refine ⟨s, rfl, ?_⟩
  rw [scalarOf, hs]
  rfl

theorem scalarTypes_of_ty? {ns : List Ident} {tys : List Ty} (h : ns.map Ident.ty? = tys.map some)
    (t : FunctionTable) : (scalarTypes ns).run t = (.ok tys, t) := by
  induction ns generalizing tys with
  | nil =>
    obtain rfl := List.map_eq_nil_iff.1 h.symm
    rfl
  | cons n ns ih =>
    obtain ⟨ty, tys, rfl, hty, htys⟩ := List.map_eq_cons_iff.1 h.symm
    obtain ⟨s, rfl, hs⟩ := scalarOf_of_ty? hty.symm t
    exact bind_eq_ok.2 ⟨s, t, hs, bind_eq_ok.2 ⟨tys, t, ih htys.symm, rfl⟩⟩

theorem declareFunction_of_signs {f : Func} {s : Signature} (h : f.Signs s) (hnew : t.get? f.name.name = none) :
    (declareFunction f).run t = (.ok (), t.insert f.name.name s) := by
  have hparams : (f.params.map Binder.type).map Ident.ty? = s.params.map some := by
    rw [List.map_map]
    exact h.params
  obtain ⟨returns, hs, hreturns⟩ := scalarOf_of_ty? h.returns t
  refine bind_eq_ok.2 ⟨_, t, scalarTypes_of_ty? hparams t, bind_eq_ok.2 ⟨returns, t, hreturns,
    bind_eq_ok.2 ⟨t, t, rfl, ?_⟩⟩⟩
  have hfree : ¬ t.contains f.name.name = true := by simp [Table.contains, hnew]
  have hsig : s = ⟨f.name.name, s.params, .scalar returns, some f.name.span⟩ := by
    rw [← h.name, ← h.span, ← hs]
  rw [FunctionTable.declare, if_neg hfree, hsig]
  rfl

theorem declareFunctions_of_signs (hsigns : ∀ f ∈ fs, ∃ s, f.Signs s) (hnames : (fs.map (·.name.name)).Nodup)
    (hnew : ∀ f ∈ fs, t.get? f.name.name = none) : ∃ t', (declareFunctions fs).run t = (.ok (), t') := by
  induction fs generalizing t with
  | nil => exact ⟨t, rfl⟩
  | cons f fs ih =>
    rw [List.map_cons, List.nodup_cons] at hnames
    obtain ⟨s, hs⟩ := hsigns f List.mem_cons_self
    have hrest : ∀ g ∈ fs, (t.insert f.name.name s).get? g.name.name = none := by
      intro g hg
      have hne : g.name.name ≠ f.name.name := fun heq =>
        hnames.1 (heq ▸ List.mem_map_of_mem (f := fun g : Func => g.name.name) hg)
      rw [Table.get?_insert, if_neg hne]
      exact hnew g (List.mem_cons_of_mem _ hg)
    obtain ⟨t', ht'⟩ := ih (fun g hg => hsigns g (List.mem_cons_of_mem _ hg)) hnames.2 hrest
    exact ⟨t', bind_eq_ok.2 ⟨(), _, declareFunction_of_signs hs (hnew f List.mem_cons_self), ht'⟩⟩

theorem signs_of_declareFunctions (h : (declareFunctions fs).run t = (.ok (), t')) :
    ∀ f ∈ fs, ∃ s, f.Signs s := by
  induction fs generalizing t with
  | nil => exact nofun
  | cons f fs ih =>
    obtain ⟨_, u, hf, h⟩ := bind_eq_ok.1 h
    obtain ⟨-, s, hs, -⟩ := declareFunction_eq_ok hf
    exact List.forall_mem_cons.2 ⟨⟨s, hs⟩, ih h⟩

/-- **Signatures do not depend on the order of functions.** -/
theorem declareFunctions_arranged (hp : fs.Perm fs') (h : (declareFunctions fs).run old = (.ok (), t)) :
    ∃ t', (declareFunctions fs').run old = (.ok (), t') ∧ ∀ n, t'.get? n = t.get? n := by
  have hd := declared_of_declareFunctions h
  obtain ⟨t', h'⟩ := declareFunctions_of_signs (fun f hf => signs_of_declareFunctions h f (hp.mem_iff.2 hf))
    ((hp.map _).nodup hd.names) (fun f hf => hd.fresh f (hp.mem_iff.2 hf))
  have hd' := declared_of_declareFunctions h'
  refine ⟨t', h', fun n => Option.ext fun s => ?_⟩
  rw [hd.get?, hd'.get?]
  simp only [hp.mem_iff]

end Signatures

/-! ## Scopes -/

/-- **Uses do not depend on the order of functions.** -/
theorem resolve_arranged {fs fs' : List Func} {t : SymbolTable} (hp : fs.Perm fs')
    (hn : (fs.flatMap Func.nodes).Nodup) (h : (resolve fs).run .empty = (.ok (), t)) :
    ∃ t', (resolve fs').run .empty = (.ok (), t') ∧ ∀ i, t'.get? i = t.get? i := by
  have hall := binds_resolve fs
  have hall' := binds_resolve fs'
  obtain ⟨-, hok, hrefers⟩ := hall.fine h
  obtain ⟨t', h'⟩ := hall'.success (fun f hf => hok f (hp.mem_iff.2 hf))
    (fun around u ⟨f, hf, hu⟩ => hrefers around u ⟨f, hp.mem_iff.2 hf, hu⟩) .empty
  refine ⟨t', h', fun i => ?_⟩
  have huses := (hp.flatMap_right Func.uses).map Use.id
  by_cases hi : i ∈ (fs.flatMap Func.uses).map Use.id
  · obtain ⟨u, hu, rfl⟩ := List.mem_map.1 hi
    obtain ⟨f, hf, hu⟩ := List.mem_flatMap.1 hu
    obtain ⟨around, hu⟩ : ∃ around, f.Uses around u := Stmt.exists_usesIn [] [f.params] hu
    obtain ⟨b, hb, hget⟩ := hall.bound h (nodup_uses hn) around u ⟨f, hf, hu⟩
    obtain ⟨b', hb', hget'⟩ := hall'.bound h' (huses.nodup (nodup_uses hn)) around u ⟨f, hp.mem_iff.1 hf, hu⟩
    rw [hget, hget', hb'.unique hb (hu.unambiguous (hok f hf))]
  · rw [hall.other h i hi, hall'.other h' i (mt huses.mem_iff.2 hi)]

/-! ## Types -/

section Types

variable {names names' : Names} {E : List Expr} {D : List Decl}

/-- Tables that say the same. -/
structure Names.Agree (names names' : Names) : Prop where
  functions : ∀ n, names'.functions.get? n = names.functions.get? n
  symbols : ∀ i, names'.symbols.get? i = names.symbols.get? i

mutual

/-- Only what the tables say matters to the rules. -/
theorem HasType.agree (ha : names.Agree names') {e : Expr} {ty : Ty} (h : HasType names D e ty) :
    HasType names' D e ty := by
  match h with
  | .int => exact .int
  | .float => exact .float
  | .string => exact .string
  | .var hd hs ht => exact .var hd ((ha.symbols _).trans hs) ht
  | .index hi hd hs ht => exact .index (hi.agree ha) hd ((ha.symbols _).trans hs) ht
  | .call hs hargs => exact .call ((ha.functions _).trans hs) (hargs.agree ha)
  | .unary hx hn => exact .unary (hx.agree ha) hn
  | .assign hx hy => exact .assign (hx.agree ha) (hy.agree ha)
  | .comparison ho hx hy hn => exact .comparison ho (hx.agree ha) (hy.agree ha) hn
  | .arithmetic hne ho hx hy hn => exact .arithmetic hne ho (hx.agree ha) (hy.agree ha) hn

theorem HaveTypes.agree (ha : names.Agree names') {es : List Expr} {tys : List Ty}
    (h : HaveTypes names D es tys) : HaveTypes names' D es tys := by
  match h with
  | .nil => exact .nil
  | .cons he hes => exact .cons (he.agree ha) (hes.agree ha)

end

theorem Decl.HasType.agree (ha : names.Agree names') {d : Decl} {ty : Ty} (h : d.HasType names D ty) :
    d.HasType names' D ty := ⟨h.declared, fun e he => (h.initial e he).agree ha⟩

theorem NodeType.agree (ha : names.Agree names') {i : NodeId} {ty : Ty} (h : NodeType names E D i ty) :
    NodeType names' E D i ty := by
  cases h with
  | expr he h => exact .expr he (h.agree ha)
  | decl hd h => exact .decl hd (h.agree ha)
  | length hd hn => exact .length hd hn

theorem NodeType.unique (hn : Numbered E D) {i : NodeId} {ty ty' : Ty} (h : NodeType names E D i ty)
    (h' : NodeType names E D i ty') : ty' = ty := by
  cases h with
  | expr he h => exact h.unique (fun _ hd _ hd' => hn.decl_id_eq hd hd') (hn.hasType_of_nodeType he h')
  | decl hd h => exact Option.some.inj ((hn.declHasType_of_nodeType hd h').declared.symm.trans h.declared)
  | length hd hlen => exact hn.int_of_nodeType hd hlen h'

/-- Typing does not depend on the order of functions. -/
theorem typeProgram_arranged {p p' : Program} {t : TypeTable} (hp : p.functions.Perm p'.functions)
    (hn : Numbered p.exprs p.decls) (ha : names.Agree names')
    (hr : ∀ f ∈ p.functions, ∀ around u, f.Uses around u → Resolved names around u)
    (h : (typeProgram names p.functions).run .empty = (.ok (), t)) :
    ∃ t', (typeProgram names' p'.functions).run .empty = (.ok (), t') ∧ ∀ i, t'.get? i = t.get? i := by
  have hexprs : p.exprs.Perm p'.exprs := hp.flatMap_right _
  have hdecls : p.decls.Perm p'.decls := hp.flatMap_right _
  have hall : Types names p.exprs p.decls (typeProgram names p.functions) _ [] _ :=
    types_typeProgram hn (fun _ he => he) (fun _ hd => hd) hr
  have hall' : Types names' p.exprs p.decls (typeProgram names' p'.functions) _ [] _ :=
    types_typeProgram hn (fun _ he => hexprs.mem_iff.2 he) (fun _ hd => hdecls.mem_iff.2 hd) (by
      intro f hf around u hu
      obtain ⟨scope, hs, b, hb, hget⟩ := hr f (hp.mem_iff.2 hf) around u hu
      exact ⟨scope, hs, b, hb, (ha.symbols _).trans hget⟩)
  obtain ⟨htypable, hc⟩ := hall.sound correct_empty h
  have htypable' : Typable names' p.decls p'.exprs p'.decls := by
    refine ⟨fun e he => ?_, fun d hd => ?_⟩
    · obtain ⟨ty, hty⟩ := htypable.expr e (hexprs.mem_iff.2 he)
      exact ⟨ty, hty.agree ha⟩
    · obtain ⟨ty, hty⟩ := htypable.decl d (hdecls.mem_iff.2 hd)
      exact ⟨ty, hty.agree ha⟩
  obtain ⟨t', h'⟩ := hall'.success (v := ()) correct_empty htypable'
  obtain ⟨-, hc'⟩ := hall'.sound correct_empty h'
  have hnodes := hp.flatMap_right Func.nodes
  refine ⟨t', h', fun i => ?_⟩
  by_cases hi : i ∈ p.functions.flatMap Func.nodes
  · obtain ⟨ty, hty⟩ := Option.isSome_iff_exists.1 (hc.known i (List.mem_append_left _ hi))
    obtain ⟨ty', hty'⟩ := Option.isSome_iff_exists.1 (hc'.known i (List.mem_append_left _ (hnodes.mem_iff.1 hi)))
    rw [hty, hty', ((hc.right i ty hty).agree ha).unique hn (hc'.right i ty' hty')]
  · rw [(typeProgram_eq_ok h).1 i hi, (typeProgram_eq_ok h').1 i (mt hnodes.mem_iff.2 hi)]

end Types

/-! ## Programs -/

/-- **The analysis does not depend on the order of functions.** If a program is accepted, so is one with the same
functions in another order, and the tables say the same. -/
theorem analyze_arranged {old : FunctionTable} {p p' : Program} {a : Analysis} (hp : p.functions.Perm p'.functions)
    (hn : (p.functions.flatMap Func.nodes).Nodup) (h : analyze old p = .ok a) :
    ∃ a', analyze old p' = .ok a' ∧ a.Like Eq a' := by
  obtain ⟨hf, hs, ht⟩ := analyze_eq_ok.1 h
  obtain ⟨functions, hf', hfunctions⟩ := declareFunctions_arranged hp hf
  obtain ⟨symbols, hs', hsymbols⟩ := resolve_arranged hp hn hs
  have hr : ∀ f ∈ p.functions, ∀ around u, f.Uses around u → Resolved a.names around u := by
    intro f hf around u hu
    obtain ⟨b, hb, hget⟩ := (binds_resolve p.functions).bound hs (nodup_uses hn) around u ⟨f, hf, hu⟩
    obtain ⟨-, scope, hscope, hmem⟩ := hb.mem
    exact ⟨scope, hscope, b, hmem, hget⟩
  have hagree : a.names.Agree ⟨functions, symbols⟩ := ⟨hfunctions, hsymbols⟩
  obtain ⟨types, ht', htypes⟩ := typeProgram_arranged hp (p.nodes_perm.nodup hn) hagree hr ht
  refine ⟨⟨functions, symbols, types⟩, analyze_eq_ok.2 ⟨hf', hs', ht'⟩, ?_, ?_, ?_⟩
  · rintro n _ rfl
    rw [hfunctions]
    cases a.functions.get? n with
    | none => exact .none
    | some s => exact .some ⟨rfl, rfl⟩
  · rintro i _ rfl
    rw [hsymbols]
    cases a.symbols.get? i with
    | none => exact .none
    | some d => exact .some rfl
  · rintro i _ rfl
    rw [htypes]
    cases a.types.get? i with
    | none => exact .none
    | some ty => exact .some rfl

end MicroC
