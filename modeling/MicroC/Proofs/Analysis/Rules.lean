import MicroC.Proofs.Analysis.Scoping

/-!
# The rules of typing

Which type an expression or a declaration has, told by rules that know nothing of an order: a use has the
declared type of the declaration it refers to, wherever that stands.

* `Decl`: the declarations of a program.
* `Expr.subs`, `Stmt.exprs`, `Stmt.decls`: the expressions and declarations in a program.
* `HasType`, `Decl.HasType`: the rules.
* `HasType.unique`: an expression has one type.
* `NodeType`: the type that the rules give to a node.
* `numbered_of_parseProgram`: a node is one expression, one declaration or the length of one array.
-/

namespace MicroC

/-! ## Declarations and expressions -/

/-- A declaration. A parameter is a variable without an initial value. -/
inductive Decl
  | variable (b : Binder) (init : Option Expr)
  | array (b : Binder) (n : ArrayLength)

namespace Decl

def binder : Decl → Binder
  | .variable b _ | .array b _ => b

def id (d : Decl) : NodeId := d.binder.site.id

def init? : Decl → Option Expr
  | .variable _ init => init
  | .array .. => none

def length? : Decl → Option ArrayLength
  | .variable .. => none
  | .array _ n => some n

/-- The type that is declared. -/
def ty? : Decl → Option Ty
  | .variable b _ => b.type.ty?
  | .array b n => (Scalar.ofName? b.type.name).map (.array · n.value.toInt.natAbs)

/-- A declaration and the literal that gives its length. -/
def nodes : Decl → List NodeId
  | .variable b _ => [b.site.id]
  | .array b n => [b.site.id, n.site.id]

theorem mem_nodes {d : Decl} {i : NodeId} : i ∈ d.nodes ↔ d.id = i ∨ ∃ n, d.length? = some n ∧ n.site.id = i := by
  cases d <;> simp [nodes, id, binder, length?, eq_comm]

end Decl

mutual

/-- An expression and all its parts. -/
def Expr.subs : Expr → List Expr
  | .int s v => [.int s v]
  | .float s v => [.float s v]
  | .string s v => [.string s v]
  | .var s n => [.var s n]
  | .index s n i => .index s n i :: i.subs
  | .call s n args => .call s n args :: Expr.subsList args
  | .unary s op sp x => .unary s op sp x :: x.subs
  | .binary s op sp x y => .binary s op sp x y :: (x.subs ++ y.subs)

/-- Expressions and all their parts. -/
def Expr.subsList : List Expr → List Expr
  | [] => []
  | e :: es => e.subs ++ Expr.subsList es

end

def Expr.subsOption : Option Expr → List Expr
  | none => []
  | some e => e.subs

mutual

/-- All expressions in a statement. -/
def Stmt.exprs : Stmt → List Expr
  | .empty _ | .array .. => []
  | .ite _ c t none => c.subs ++ t.exprs
  | .ite _ c t (some e) => c.subs ++ (t.exprs ++ e.exprs)
  | .loop _ c b => c.subs ++ b.exprs
  | .ret _ v => Expr.subsOption v
  | .expr _ e => e.subs
  | .decl _ init => Expr.subsOption init
  | .block _ body => Stmt.exprsAll body

def Stmt.exprsAll : List Stmt → List Expr
  | [] => []
  | s :: ss => s.exprs ++ Stmt.exprsAll ss

end

mutual

/-- All declarations in a statement. -/
def Stmt.decls : Stmt → List Decl
  | .empty _ | .ret .. | .expr .. => []
  | .ite _ _ t none => t.decls
  | .ite _ _ t (some e) => t.decls ++ e.decls
  | .loop _ _ b => b.decls
  | .decl b init => [.variable b init]
  | .array b n => [.array b n]
  | .block _ body => Stmt.declsAll body

def Stmt.declsAll : List Stmt → List Decl
  | [] => []
  | s :: ss => s.decls ++ Stmt.declsAll ss

end

namespace Func

def exprs (f : Func) : List Expr := Stmt.exprsAll f.body

/-- The parameters come first. -/
def decls (f : Func) : List Decl := f.params.map (.variable · none) ++ Stmt.declsAll f.body

end Func

namespace Program

def exprs (p : Program) : List Expr := p.functions.flatMap Func.exprs

def decls (p : Program) : List Decl := p.functions.flatMap Func.decls

end Program

theorem Expr.mem_subs_self (e : Expr) : e ∈ e.subs := by
  cases e <;> exact List.mem_cons_self

mutual

theorem Expr.subs_trans {e x y : Expr} (hx : x ∈ e.subs) (hy : y ∈ x.subs) : y ∈ e.subs := by
  match e with
  | .int .. | .float .. | .string .. | .var .. =>
    obtain rfl := List.mem_singleton.1 hx
    exact hy
  | .index s n i =>
    rcases List.mem_cons.1 hx with rfl | hx
    · exact hy
    · exact List.mem_cons_of_mem _ (Expr.subs_trans hx hy)
  | .call s n args =>
    rcases List.mem_cons.1 hx with rfl | hx
    · exact hy
    · exact List.mem_cons_of_mem _ (Expr.subsList_trans hx hy)
  | .unary s op sp z =>
    rcases List.mem_cons.1 hx with rfl | hx
    · exact hy
    · exact List.mem_cons_of_mem _ (Expr.subs_trans hx hy)
  | .binary s op sp z w =>
    rcases List.mem_cons.1 hx with rfl | hx
    · exact hy
    · rcases List.mem_append.1 hx with hx | hx
      · exact List.mem_cons_of_mem _ (List.mem_append_left _ (Expr.subs_trans hx hy))
      · exact List.mem_cons_of_mem _ (List.mem_append_right _ (Expr.subs_trans hx hy))

theorem Expr.subsList_trans {es : List Expr} {x y : Expr} (hx : x ∈ Expr.subsList es) (hy : y ∈ x.subs) :
    y ∈ Expr.subsList es := by
  match es with
  | e :: es =>
    rcases List.mem_append.1 hx with hx | hx
    · exact List.mem_append_left _ (Expr.subs_trans hx hy)
    · exact List.mem_append_right _ (Expr.subsList_trans hx hy)

end

theorem Expr.subsOption_trans {o : Option Expr} {x y : Expr} (hx : x ∈ Expr.subsOption o) (hy : y ∈ x.subs) :
    y ∈ Expr.subsOption o := by
  cases o with
  | none => cases hx
  | some e => exact Expr.subs_trans hx hy

mutual

theorem Stmt.subs_exprs {s : Stmt} {x y : Expr} (hx : x ∈ s.exprs) (hy : y ∈ x.subs) : y ∈ s.exprs := by
  match s with
  | .ite _ c t none | .loop _ c t =>
    rcases List.mem_append.1 hx with hx | hx
    · exact List.mem_append_left _ (Expr.subs_trans hx hy)
    · exact List.mem_append_right _ (Stmt.subs_exprs hx hy)
  | .ite _ c t (some e) =>
    rcases List.mem_append.1 hx with hx | hx
    · exact List.mem_append_left _ (Expr.subs_trans hx hy)
    · rcases List.mem_append.1 hx with hx | hx
      · exact List.mem_append_right _ (List.mem_append_left _ (Stmt.subs_exprs hx hy))
      · exact List.mem_append_right _ (List.mem_append_right _ (Stmt.subs_exprs hx hy))
  | .ret _ v => exact Expr.subsOption_trans hx hy
  | .expr _ e => exact Expr.subs_trans hx hy
  | .decl _ init => exact Expr.subsOption_trans hx hy
  | .block _ body => exact Stmt.subs_exprsAll hx hy

theorem Stmt.subs_exprsAll {xs : List Stmt} {x y : Expr} (hx : x ∈ Stmt.exprsAll xs) (hy : y ∈ x.subs) :
    y ∈ Stmt.exprsAll xs := by
  match xs with
  | s :: ss =>
    rcases List.mem_append.1 hx with hx | hx
    · exact List.mem_append_left _ (Stmt.subs_exprs hx hy)
    · exact List.mem_append_right _ (Stmt.subs_exprsAll hx hy)

end

/-- The parts of an expression in a program are expressions in the program. -/
theorem Program.subs_exprs {p : Program} {x y : Expr} (hx : x ∈ p.exprs) (hy : y ∈ x.subs) : y ∈ p.exprs := by
  obtain ⟨f, hf, hx⟩ := List.mem_flatMap.1 hx
  exact List.mem_flatMap.2 ⟨f, hf, Stmt.subs_exprsAll hx hy⟩

theorem Stmt.mem_decls_of_mem_declares {x : Stmt} {b : Binder} (h : b ∈ x.declares) :
    ∃ d ∈ x.decls, d.binder = b := by
  cases x with
  | decl c init | array c n =>
    obtain rfl := List.mem_singleton.1 h
    exact ⟨_, List.mem_cons_self, rfl⟩
  | _ => cases h

theorem Stmt.mem_nodes_of_mem_declares {x : Stmt} {b : Binder} (h : b ∈ x.declares) : b.site.id ∈ x.nodes := by
  cases x with
  | decl c init | array c n =>
    obtain rfl := List.mem_singleton.1 h
    exact List.mem_cons_self
  | _ => cases h

/-! ## Rules -/

mutual

/-- The rules for expressions, where the uses refer to declarations among `D`. -/
inductive HasType (names : Names) (D : List Decl) : Expr → Ty → Prop
  | int {s : Site} {v : Int64} : HasType names D (.int s v) .int
  | float {s : Site} {v : Binary64} : HasType names D (.float s v) .float
  | string {s : Site} {v : String} : HasType names D (.string s v) .string
  | var {s : Site} {n : Ident} {d : Decl} {ty : Ty} (hd : d ∈ D) (hs : names.symbols.get? s.id = some d.id)
      (ht : d.ty? = some ty) : HasType names D (.var s n) ty
  | index {s : Site} {n : Ident} {i : Expr} {d : Decl} {el : Scalar} {k : Nat} (hi : HasType names D i .int)
      (hd : d ∈ D) (hs : names.symbols.get? s.id = some d.id) (ht : d.ty? = some (.array el k)) :
      HasType names D (.index s n i) (.scalar el)
  | call {s : Site} {n : Ident} {args : List Expr} {sig : Signature}
      (hs : names.functions.get? n.name = some sig) (ha : HaveTypes names D args sig.params) :
      HasType names D (.call s n args) sig.returns
  | unary {s : Site} {op : UnaryOp} {sp : Span} {x : Expr} {ty : Ty} (hx : HasType names D x ty)
      (hn : ty.isNumeric = true) : HasType names D (.unary s op sp x) ty
  | assign {s : Site} {sp : Span} {x y : Expr} {ty : Ty} (hx : HasType names D x ty)
      (hy : HasType names D y ty) : HasType names D (.binary s .assign sp x y) ty
  | comparison {s : Site} {op : BinaryOp} {sp : Span} {x y : Expr} {ty : Ty} (ho : op.isComparison = true)
      (hx : HasType names D x ty) (hy : HasType names D y ty) (hn : ty.isNumeric = true) :
      HasType names D (.binary s op sp x y) .int
  | arithmetic {s : Site} {op : BinaryOp} {sp : Span} {x y : Expr} {ty : Ty} (hne : op ≠ .assign)
      (ho : op.isComparison = false) (hx : HasType names D x ty) (hy : HasType names D y ty)
      (hn : ty.isNumeric = true) : HasType names D (.binary s op sp x y) ty

/-- Arguments have the types of the parameters, one by one. -/
inductive HaveTypes (names : Names) (D : List Decl) : List Expr → List Ty → Prop
  | nil : HaveTypes names D [] []
  | cons {e : Expr} {es : List Expr} {ty : Ty} {tys : List Ty} (he : HasType names D e ty)
      (hes : HaveTypes names D es tys) : HaveTypes names D (e :: es) (ty :: tys)

end

/-- A declaration has the declared type, and so has its initial value. -/
structure Decl.HasType (names : Names) (D : List Decl) (d : Decl) (ty : Ty) : Prop where
  declared : d.ty? = some ty
  initial : ∀ e, d.init? = some e → MicroC.HasType names D e ty

/-- All of some expressions and declarations have types. -/
structure Typable (names : Names) (D : List Decl) (es : List Expr) (ds : List Decl) : Prop where
  expr : ∀ e ∈ es, ∃ ty, HasType names D e ty
  decl : ∀ d ∈ ds, ∃ ty, d.HasType names D ty

/-- The type that the rules give to a node. -/
inductive NodeType (names : Names) (E : List Expr) (D : List Decl) : NodeId → Ty → Prop
  | expr {e : Expr} {ty : Ty} (he : e ∈ E) (h : HasType names D e ty) : NodeType names E D e.id ty
  | decl {d : Decl} {ty : Ty} (hd : d ∈ D) (h : d.HasType names D ty) : NodeType names E D d.id ty
  | length {d : Decl} {n : ArrayLength} (hd : d ∈ D) (hn : d.length? = some n) :
      NodeType names E D n.site.id .int

section Rules

variable {names : Names} {D : List Decl}

theorem HaveTypes.length_eq {es : List Expr} {tys : List Ty} (h : HaveTypes names D es tys) :
    es.length = tys.length := by
  induction es generalizing tys with
  | nil =>
    cases h
    rfl
  | cons e es ih =>
    cases h with
    | cons _ hes => exact congrArg (· + 1) (ih hes)

theorem typable_nil : Typable names D [] [] := ⟨by simp, by simp⟩

theorem typable_append (es es' : List Expr) (ds ds' : List Decl) :
    Typable names D (es ++ es') (ds ++ ds') ↔ Typable names D es ds ∧ Typable names D es' ds' := by
  constructor
  · intro h
    exact ⟨⟨fun e he => h.expr e (List.mem_append_left _ he), fun d hd => h.decl d (List.mem_append_left _ hd)⟩,
      ⟨fun e he => h.expr e (List.mem_append_right _ he), fun d hd => h.decl d (List.mem_append_right _ hd)⟩⟩
  · rintro ⟨h, h'⟩
    refine ⟨fun e he => ?_, fun d hd => ?_⟩
    · exact (List.mem_append.1 he).elim (h.expr e) (h'.expr e)
    · exact (List.mem_append.1 hd).elim (h.decl d) (h'.decl d)

theorem HasType.sides {s : Site} {op : BinaryOp} {sp : Span} {x y : Expr} {ty : Ty}
    (h : HasType names D (.binary s op sp x y) ty) : ∃ ty', HasType names D x ty' ∧ HasType names D y ty' := by
  cases h with
  | assign hx hy | comparison _ hx hy _ | arithmetic _ _ hx hy _ => exact ⟨_, hx, hy⟩

mutual

theorem HasType.subs {e : Expr} {ty : Ty} (h : HasType names D e ty) :
    ∀ x ∈ e.subs, ∃ ty, HasType names D x ty := by
  intro x hx
  match e, h with
  | .int _ _, h | .float _ _, h | .string _ _, h | .var _ _, h =>
    obtain rfl := List.mem_singleton.1 hx
    exact ⟨ty, h⟩
  | .index s n i, .index hi hd hs ht =>
    rcases List.mem_cons.1 hx with rfl | hx
    · exact ⟨_, .index hi hd hs ht⟩
    · exact hi.subs x hx
  | .call s n args, .call hs ha =>
    rcases List.mem_cons.1 hx with rfl | hx
    · exact ⟨_, .call hs ha⟩
    · exact ha.subs x hx
  | .unary s op sp y, .unary hy hn =>
    rcases List.mem_cons.1 hx with rfl | hx
    · exact ⟨_, .unary hy hn⟩
    · exact hy.subs x hx
  | .binary s op sp y z, h =>
    rcases List.mem_cons.1 hx with rfl | hx
    · exact ⟨ty, h⟩
    · obtain ⟨_, hy, hz⟩ := h.sides
      exact (List.mem_append.1 hx).elim (hy.subs x) (hz.subs x)

theorem HaveTypes.subs {es : List Expr} {tys : List Ty} (h : HaveTypes names D es tys) :
    ∀ x ∈ Expr.subsList es, ∃ ty, HasType names D x ty := by
  intro x hx
  match es, h with
  | e :: es, .cons he hes => exact (List.mem_append.1 hx).elim (he.subs x) (hes.subs x)

end

theorem typable_subs {e : Expr} : Typable names D e.subs [] ↔ ∃ ty, HasType names D e ty :=
  ⟨fun h => h.expr e e.mem_subs_self, fun h => ⟨h.elim fun _ he => he.subs, by simp⟩⟩

section Unique

variable (hD : ∀ d ∈ D, ∀ d' ∈ D, d'.id = d.id → d' = d)
include hD

/-- **An expression has one type.** -/
theorem HasType.unique {e : Expr} {ty ty' : Ty} (h : HasType names D e ty) (h' : HasType names D e ty') :
    ty' = ty := by
  match e, h, h' with
  | .int _ _, .int, .int | .float _ _, .float, .float | .string _ _, .string, .string => rfl
  | .var s n, .var hd hs ht, .var hd' hs' ht' =>
    obtain rfl := hD _ hd _ hd' (Option.some.inj (hs'.symm.trans hs))
    exact Option.some.inj (ht'.symm.trans ht)
  | .index s n i, .index _ hd hs ht, .index _ hd' hs' ht' =>
    obtain rfl := hD _ hd _ hd' (Option.some.inj (hs'.symm.trans hs))
    cases ht'.symm.trans ht
    rfl
  | .call s n args, .call hs _, .call hs' _ => rw [Option.some.inj (hs'.symm.trans hs)]
  | .unary s op sp x, .unary hx _, .unary hx' _ => exact hx.unique hx'
  | .binary s _ sp x y, .assign hx _, h' =>
    match h' with
    | .assign hx' _ => exact hx.unique hx'
    | .comparison ho _ _ _ => cases ho
    | .arithmetic hne _ _ _ _ => exact absurd rfl hne
  | .binary s op sp x y, .comparison ho _ _ _, h' =>
    match op, h', ho with
    | _, .comparison .., _ => rfl
    | _, .arithmetic _ ho' _ _ _, ho => exact absurd (ho.symm.trans ho') (by decide)
  | .binary s op sp x y, .arithmetic hne ho hx _ _, h' =>
    match op, h', hne, ho with
    | _, .assign _ _, hne, _ => exact absurd rfl hne
    | _, .comparison ho' _ _ _, _, ho => exact absurd (ho'.symm.trans ho) (by decide)
    | _, .arithmetic _ _ hx' _ _, _, _ => exact hx.unique hx'

end Unique

end Rules

/-! ## Their numbers -/

mutual

theorem Expr.nodes_eq (e : Expr) : e.nodes = e.subs.map Expr.id := by
  match e with
  | .int .. | .float .. | .string .. | .var .. => rfl
  | .index s n i => exact congrArg (s.id :: ·) i.nodes_eq
  | .call s n args => exact congrArg (s.id :: ·) (Expr.nodesList_eq args)
  | .unary s op sp x => exact congrArg (s.id :: ·) x.nodes_eq
  | .binary s op sp x y =>
    rw [Expr.nodes, Expr.subs, List.map_cons, List.map_append, x.nodes_eq, y.nodes_eq]
    rfl

theorem Expr.nodesList_eq (es : List Expr) : Expr.nodesList es = (Expr.subsList es).map Expr.id := by
  match es with
  | [] => rfl
  | e :: es => rw [Expr.nodesList, Expr.subsList, List.map_append, e.nodes_eq, Expr.nodesList_eq es]

end

theorem Expr.nodesOption_eq (o : Option Expr) : Expr.nodesOption o = (Expr.subsOption o).map Expr.id := by
  cases o with
  | none => rfl
  | some e => exact e.nodes_eq

section Numbers

variable (i : NodeId)

mutual

/-- A node of a statement that has a type is an expression or belongs to a declaration. -/
theorem Stmt.count_nodes (x : Stmt) :
    x.nodes.count i = (x.exprs.map Expr.id).count i + (x.decls.flatMap Decl.nodes).count i := by
  match x with
  | .empty _ => rfl
  | .ite _ c t none | .loop _ c t =>
    have := t.count_nodes
    simp only [Stmt.nodes, Stmt.exprs, Stmt.decls, c.nodes_eq, List.map_append, List.count_append]
    omega
  | .ite _ c t (some e) =>
    have := t.count_nodes
    have := e.count_nodes
    simp only [Stmt.nodes, Stmt.exprs, Stmt.decls, c.nodes_eq, List.map_append, List.flatMap_append,
      List.count_append]
    omega
  | .ret _ v => rw [Stmt.nodes, Stmt.exprs, Expr.nodesOption_eq]; rfl
  | .expr _ e => rw [Stmt.nodes, Stmt.exprs, Expr.nodes_eq]; rfl
  | .decl b init =>
    show (b.site.id :: Expr.nodesOption init).count i = ((Expr.subsOption init).map Expr.id).count i + [b.site.id].count i
    rw [Expr.nodesOption_eq, List.count_cons, List.count_singleton]
  | .array b n => exact (Nat.zero_add _).symm
  | .block _ body => exact Stmt.count_nodesList body

theorem Stmt.count_nodesList (xs : List Stmt) : (Stmt.nodesList xs).count i =
    ((Stmt.exprsAll xs).map Expr.id).count i + ((Stmt.declsAll xs).flatMap Decl.nodes).count i := by
  match xs with
  | [] => rfl
  | x :: xs =>
    have := x.count_nodes
    have := Stmt.count_nodesList xs
    simp only [Stmt.nodesList, Stmt.exprsAll, Stmt.declsAll, List.map_append, List.flatMap_append, List.count_append]
    omega

end

theorem Func.count_nodes (f : Func) :
    f.nodes.count i = (f.exprs.map Expr.id).count i + (f.decls.flatMap Decl.nodes).count i := by
  have hbody := Stmt.count_nodesList i f.body
  have hparams : (f.params.map (Decl.variable · none)).flatMap Decl.nodes = f.params.map (·.site.id) := by
    rw [List.flatMap_map]
    exact List.flatMap_singleton' f.params ▸ (List.map_eq_flatMap).symm
  simp only [Func.nodes, Func.exprs, Func.decls, List.flatMap_append, List.count_append, hparams]
  omega

end Numbers

/-- Different expressions and declarations have different numbers. -/
def Numbered (E : List Expr) (D : List Decl) : Prop := (E.map Expr.id ++ D.flatMap Decl.nodes).Nodup

theorem Program.nodes_perm (p : Program) :
    (p.functions.flatMap Func.nodes).Perm (p.exprs.map Expr.id ++ p.decls.flatMap Decl.nodes) := by
  refine List.perm_iff_count.2 fun i => ?_
  rw [Program.exprs, Program.decls, List.count_append]
  induction p.functions with
  | nil => rfl
  | cons f fs ih =>
    simp only [List.flatMap_cons, List.map_append, List.flatMap_append, List.count_append, ih, f.count_nodes]
    omega

theorem numbered_of_parseProgram {source : String} {p : Program} (h : parseProgram source = .ok p) :
    Numbered p.exprs p.decls := p.nodes_perm.nodup (nodup_nodes_of_parseProgram h)

namespace Numbered

variable {names : Names} {E : List Expr} {D : List Decl} (h : Numbered E D)
include h

theorem expr_eq {e e' : Expr} (he : e ∈ E) (he' : e' ∈ E) (hid : e'.id = e.id) : e' = e :=
  List.inj_on_of_nodup_map (List.nodup_append.1 h).1 he' he hid

theorem decl_eq {d d' : Decl} (hd : d ∈ D) (hd' : d' ∈ D) {i : NodeId} (hi : i ∈ d.nodes) (hi' : i ∈ d'.nodes) :
    d' = d := by
  have hdisj := (List.nodup_flatMap.1 (List.nodup_append.1 h).2.1).2
  have hsymm : Std.Symm (Function.onFun List.Disjoint Decl.nodes) := ⟨fun _ _ hd _ hg hf => hd hf hg⟩
  by_contra hne
  exact hdisj.forall hd' hd hne hi' hi

theorem apart {e : Expr} {d : Decl} (he : e ∈ E) (hd : d ∈ D) : e.id ∉ d.nodes := fun hmem =>
  (List.nodup_append.1 h).2.2 _ (List.mem_map_of_mem he) _ (List.mem_flatMap.2 ⟨d, hd, hmem⟩) rfl

theorem id_ne_length {d d' : Decl} (hd : d ∈ D) (hd' : d' ∈ D) {n : ArrayLength} (hn : d'.length? = some n) :
    n.site.id ≠ d.id := by
  intro heq
  obtain rfl := h.decl_eq hd hd' (Decl.mem_nodes.2 (.inl rfl)) (Decl.mem_nodes.2 (.inr ⟨n, hn, heq⟩))
  have hnodup := (List.nodup_flatMap.1 (List.nodup_append.1 h).2.1).1 d' hd
  match d', hn with
  | .array b n, rfl => exact (List.nodup_cons.1 hnodup).1 (List.mem_singleton.2 heq.symm)

theorem hasType_of_nodeType {e : Expr} (he : e ∈ E) {ty : Ty} (ht : NodeType names E D e.id ty) :
    HasType names D e ty := by
  generalize hi : e.id = i at ht
  cases ht with
  | expr he' ht => exact h.expr_eq he he' hi.symm ▸ ht
  | decl hd _ => exact absurd (Decl.mem_nodes.2 (.inl hi.symm)) (h.apart he hd)
  | length hd hn => exact absurd (Decl.mem_nodes.2 (.inr ⟨_, hn, hi.symm⟩)) (h.apart he hd)

theorem declHasType_of_nodeType {d : Decl} (hd : d ∈ D) {ty : Ty} (ht : NodeType names E D d.id ty) :
    d.HasType names D ty := by
  generalize hi : d.id = i at ht
  cases ht with
  | expr he _ => exact absurd (Decl.mem_nodes.2 (.inl hi)) (h.apart he hd)
  | decl hd' ht =>
    exact h.decl_eq hd hd' (Decl.mem_nodes.2 (.inl rfl)) (Decl.mem_nodes.2 (.inl hi.symm)) ▸ ht
  | length hd' hn => exact absurd hi.symm (h.id_ne_length hd hd' hn)

theorem int_of_nodeType {d : Decl} (hd : d ∈ D) {n : ArrayLength} (hn : d.length? = some n) {ty : Ty}
    (ht : NodeType names E D n.site.id ty) : ty = .int := by
  generalize hi : n.site.id = i at ht
  cases ht with
  | expr he _ => exact absurd (Decl.mem_nodes.2 (.inr ⟨n, hn, hi⟩)) (h.apart he hd)
  | decl hd' _ => exact absurd hi (h.id_ne_length hd' hd hn)
  | length _ _ => rfl

theorem decl_id_eq {d d' : Decl} (hd : d ∈ D) (hd' : d' ∈ D) (hid : d'.id = d.id) : d' = d :=
  h.decl_eq hd hd' (Decl.mem_nodes.2 (.inl rfl)) (Decl.mem_nodes.2 (.inl hid))

end Numbered

end MicroC
