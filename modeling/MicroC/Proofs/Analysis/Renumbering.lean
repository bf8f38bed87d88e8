import MicroC.Proofs.Analysis.Calls
import MicroC.Proofs.Parser.Renumbering

/-!
# Analysis up to numbers

Programs that differ in numbers and places only are accepted or rejected alike, for the same reason, and the
tables say the same about nodes that correspond.

* `Table.Like`: tables that agree up to a correspondence of keys and one of values.
* `Pass.Alike`: passes that end alike on tables that agree.
* `Analysis.Like`: analyses that agree.
* **`analyze_alike`**: programs that differ in numbers and places only are analysed alike.
-/

namespace MicroC

/-! ## Tables -/

/-- Keys that correspond have values that correspond. -/
def Table.Like {κ κ' α α' : Type} [DecidableEq κ] [DecidableEq κ'] (K : κ → κ' → Prop) (V : α → α' → Prop)
    (t : Table κ α) (t' : Table κ' α') : Prop :=
  ∀ k k', K k k' → Option.Rel V (t.get? k) (t'.get? k')

namespace Table

variable {κ κ' α α' : Type} [DecidableEq κ] [DecidableEq κ'] {K : κ → κ' → Prop} {V : α → α' → Prop}

theorem like_empty : Like K V (empty : Table κ α) (empty : Table κ' α') := fun _ _ _ => .none

theorem Like.insert [LT κ] [DecidableLT κ] [LT κ'] [DecidableLT κ'] {t : Table κ α} {t' : Table κ' α'}
    (h : Like K V t t') {k : κ} {k' : κ'} (hone : ∀ j j', K j j' → (j = k ↔ j' = k')) {a : α} {a' : α'}
    (ha : V a a') : Like K V (t.insert k a) (t'.insert k' a') := by
  intro j j' hj
  rw [get?_insert, get?_insert]
  by_cases hjk : j = k
  · rw [if_pos hjk, if_pos ((hone j j' hj).1 hjk)]
    exact .some ha
  · rw [if_neg hjk, if_neg (mt (hone j j' hj).2 hjk)]
    exact h j j' hj

end Table

/-! ## Passes -/

/-- Ends of two passes: both with the same fault, or both with values and tables that correspond. -/
inductive Pass.EndsAlike {τ τ' α α' : Type} (T : τ → τ' → Prop) (A : α → α' → Prop) :
    Except SemanticError α × τ → Except SemanticError α' × τ' → Prop
  | ok {a : α} {a' : α'} {t : τ} {t' : τ'} (ha : A a a') (ht : T t t') :
      EndsAlike T A (.ok a, t) (.ok a', t')
  | error {e e' : SemanticError} {t : τ} {t' : τ'} (he : e.fault = e'.fault) :
      EndsAlike T A (.error e, t) (.error e', t')

/-- From tables that correspond both passes end alike. -/
def Pass.Alike {τ τ' α α' : Type} (T : τ → τ' → Prop) (A : α → α' → Prop) (x : Pass τ α) (y : Pass τ' α') : Prop :=
  ∀ t t', T t t' → Pass.EndsAlike T A (x.run t) (y.run t')

namespace Pass.Alike

variable {τ τ' α α' β β' : Type} {T : τ → τ' → Prop} {A : α → α' → Prop} {B : β → β' → Prop}

protected theorem pure {a : α} {a' : α'} (h : A a a') : Alike T A (pure a) (pure a') := fun _ _ ht => .ok h ht

theorem reject {fault : SemanticFault} {span span' : Span} :
    Alike T A (Pass.reject fault span) (Pass.reject fault span') := fun _ _ _ => .error rfl

protected theorem bind {x : Pass τ α} {y : Pass τ' α'} {f : α → Pass τ β} {g : α' → Pass τ' β'} (h : Alike T A x y)
    (hfg : ∀ a a', A a a' → Alike T B (f a) (g a')) : Alike T B (x >>= f) (y >>= g) := by
  intro t t' ht
  have hends := h t t' ht
  rw [Pass.run_bind, Pass.run_bind]
  cases hx : x.run t with
  | mk r u =>
  cases hy : y.run t' with
  | mk r' u' =>
  rw [hx, hy] at hends
  cases hends with
  | ok ha hu => exact hfg _ _ ha _ _ hu
  | error he => exact .error he

theorem get : Alike T T MonadState.get MonadState.get := fun _ _ ht => .ok ht ht

theorem update {f : τ → τ} {g : τ' → τ'} (h : ∀ t t', T t t' → T (f t) (g t')) :
    Alike T Eq (modify f : Pass τ PUnit) (modify g : Pass τ' PUnit) := fun t t' ht => .ok rfl (h t t' ht)

theorem guard {p : Prop} [Decidable p] {fault : SemanticFault} {span span' : Span} {f : Unit → Pass τ α}
    {g : Unit → Pass τ' α'} (h : Alike T A (f ()) (g ())) :
    Alike T A (if p then Pass.reject fault span >>= f else f ()) (if p then Pass.reject fault span' >>= g else g ()) := by
  by_cases hp : p
  · rw [if_pos hp, if_pos hp]
    exact .bind (A := fun _ _ => True) .reject fun _ _ _ => h
  · rw [if_neg hp, if_neg hp]
    exact h

end Pass.Alike

theorem scalarOf_alike {τ τ' : Type} {T : τ → τ' → Prop} {n n' : Ident} (h : n.name = n'.name) :
    Pass.Alike T Eq (scalarOf n) (scalarOf n') := by
  unfold scalarOf
  rw [h]
  cases Scalar.ofName? n'.name with
  | some s => exact .pure rfl
  | none => exact .reject

/-! ## Signatures -/

/-- Signatures that differ in their place only. -/
def Signature.Like (s s' : Signature) : Prop := s.params = s'.params ∧ s.returns = s'.returns

/-- Tables with the same functions. -/
abbrev FunctionTable.Like (t t' : FunctionTable) : Prop := Table.Like Eq Signature.Like t t'

theorem scalarTypes_alike {ns ns' : List Ident} (h : ns.map Ident.name = ns'.map Ident.name) :
    Pass.Alike FunctionTable.Like Eq (scalarTypes ns) (scalarTypes ns') := by
  induction ns generalizing ns' with
  | nil =>
    obtain rfl := List.map_eq_nil_iff.1 h.symm
    exact .pure rfl
  | cons n ns ih =>
    obtain ⟨n', ns', rfl, hn, hns⟩ := List.map_eq_cons_iff.1 h.symm
    refine .bind (scalarOf_alike hn.symm) ?_
    rintro s _ rfl
    refine .bind (ih hns.symm) ?_
    rintro ss _ rfl
    exact .pure rfl

theorem Expr.LikeList.length {R : NodeId → NodeId → Prop} {es es' : List Expr} (h : Expr.LikeList R es es') :
    es.length = es'.length := by
  match h with
  | .nil => rfl
  | .cons _ hxs => rw [List.length_cons, List.length_cons, hxs.length]

theorem types_map_name {R : NodeId → NodeId → Prop} {bs bs' : List Binder} (h : List.Forall₂ (Binder.Like R) bs bs') :
    (bs.map Binder.type).map Ident.name = (bs'.map Binder.type).map Ident.name := by
  induction h with
  | nil => rfl
  | cons hb _ ih => simp only [List.map_cons, hb.type, ih]

theorem FunctionTable.Like.contains {t t' : FunctionTable} (h : t.Like t') (n : String) :
    t.contains n = t'.contains n := by
  have hn := h n n rfl
  rw [Table.contains, Table.contains]
  revert hn
  generalize t.get? n = a, t'.get? n = a'
  rintro (_ | _) <;> rfl

theorem declareFunction_alike {R : NodeId → NodeId → Prop} {f f' : Func} (h : f.Like R f') :
    Pass.Alike FunctionTable.Like Eq (declareFunction f) (declareFunction f') := by
  refine .bind (scalarTypes_alike (types_map_name h.params)) ?_
  rintro params _ rfl
  refine .bind (scalarOf_alike h.returns) ?_
  rintro returns _ rfl
  refine .bind .get fun t t' ht => ?_
  rw [FunctionTable.declare, FunctionTable.declare, ht.contains, h.name]
  cases t'.contains f'.name.name with
  | true => exact fun _ _ _ => .error rfl
  | false => exact fun _ _ _ => .ok rfl (ht.insert (fun _ _ hj => by rw [hj]) ⟨rfl, rfl⟩)

theorem declareFunctions_alike {R : NodeId → NodeId → Prop} {fs fs' : List Func}
    (h : List.Forall₂ (Func.Like R) fs fs') :
    Pass.Alike FunctionTable.Like Eq (declareFunctions fs) (declareFunctions fs') := by
  induction h with
  | nil => exact .pure rfl
  | cons hf _ ih => exact .bind (declareFunction_alike hf) fun _ _ _ => ih

/-! ## Scopes -/

section Scopes

variable {R : NodeId → NodeId → Prop}

/-- Uses that correspond refer to declarations that correspond. -/
abbrev SymbolTable.Like (R : NodeId → NodeId → Prop) (t t' : SymbolTable) : Prop := Table.Like R R t t'

/-- Scopes with the same names. -/
def Scope.Like (R : NodeId → NodeId → Prop) : Scope → Scope → Prop :=
  List.Forall₂ fun d d' => d.1 = d'.1 ∧ R d.2 d'.2

structure Scopes.Like (R : NodeId → NodeId → Prop) (s s' : Scopes) : Prop where
  inner : s.inner.Like R s'.inner
  outer : List.Forall₂ (Scope.Like R) s.outer s'.outer

namespace Scopes.Like

variable {s s' : Scopes}

theorem root : Scopes.Like R .root .root := ⟨.nil, .nil⟩

theorem enter (h : s.Like R s') : s.enter.Like R s'.enter := ⟨.nil, .cons h.inner h.outer⟩

end Scopes.Like

theorem Scope.Like.lookup {s s' : Scope} (h : s.Like R s') (n : String) : Option.Rel R (s.lookup n) (s'.lookup n) := by
  induction h with
  | nil => exact .none
  | @cons d d' s s' hd _ ih =>
    obtain ⟨m, i⟩ := d
    obtain ⟨m', i'⟩ := d'
    obtain ⟨rfl, hi⟩ := hd
    rw [Table.lookup_cons_ite, Table.lookup_cons_ite]
    split
    · exact .some hi
    · exact ih

theorem find?_alike {ss ss' : List Scope} (h : List.Forall₂ (Scope.Like R) ss ss') (n : String) :
    Option.Rel R (ss.findSome? (·.lookup n)) (ss'.findSome? (·.lookup n)) := by
  induction h with
  | nil => exact .none
  | @cons s s' ss ss' hs _ ih =>
    rw [List.findSome?_cons, List.findSome?_cons]
    have hlookup := hs.lookup n
    revert hlookup
    generalize s.lookup n = a, s'.lookup n = a'
    rintro (h | _)
    · exact .some h
    · exact ih

theorem Scopes.Like.find? {s s' : Scopes} (h : s.Like R s') (n : String) :
    Option.Rel R (s.find? n) (s'.find? n) := find?_alike (.cons h.inner h.outer) n

theorem define_alike {s s' : Scopes} (h : s.Like R s') {b b' : Binder} (hb : b.Like R b') :
    Pass.Alike (SymbolTable.Like R) (Scopes.Like R) (s.define b.name b.site.id) (s'.define b'.name b'.site.id) := by
  unfold Scopes.define
  rw [hb.name]
  have hlookup := h.inner.lookup b'.name.name
  revert hlookup
  generalize s.inner.lookup b'.name.name = a, s'.inner.lookup b'.name.name = a'
  rintro (_ | _)
  · exact .reject
  · exact .pure ⟨.cons ⟨rfl, hb.site⟩ h.inner, h.outer⟩

theorem defineAll_alike {s s' : Scopes} (h : s.Like R s') {bs bs' : List Binder}
    (hbs : List.Forall₂ (Binder.Like R) bs bs') :
    Pass.Alike (SymbolTable.Like R) (Scopes.Like R) (s.defineAll bs) (s'.defineAll bs') := by
  induction hbs generalizing s s' with
  | nil => exact .pure h
  | cons hb _ ih => exact .bind (define_alike h hb) fun _ _ h => ih h

theorem bindUse_alike (hR : OneToOne R) {s s' : Scopes} (h : s.Like R s') {i i' : NodeId} (hi : R i i') {n n' : Ident}
    (hn : n.name = n'.name) : Pass.Alike (SymbolTable.Like R) Eq (s.bindUse i n) (s'.bindUse i' n') := by
  unfold Scopes.bindUse
  rw [hn]
  have hfind := h.find? n'.name
  revert hfind
  generalize s.find? n'.name = a, s'.find? n'.name = a'
  rintro (hd | _)
  · exact .update fun _ _ ht => ht.insert (fun _ _ hj => hR hj hi) hd
  · exact .reject

mutual

theorem resolveExpr_alike (hR : OneToOne R) {s s' : Scopes} (h : s.Like R s') {e e' : Expr} (he : e.Like R e') :
    Pass.Alike (SymbolTable.Like R) Eq (resolveExpr s e) (resolveExpr s' e') := by
  match he with
  | .int _ | .float _ | .string _ => exact .pure rfl
  | .var hs hn => exact bindUse_alike hR h hs hn
  | .index hs hn hx => exact .bind (resolveExpr_alike hR h hx) fun _ _ _ => bindUse_alike hR h hs hn
  | .call _ _ hxs => exact resolveExprs_alike hR h hxs
  | .unary _ hx =>
    rw [resolveExpr, resolveExpr]
    exact resolveExpr_alike hR h hx
  | .binary _ hx hy => exact .bind (resolveExpr_alike hR h hx) fun _ _ _ => resolveExpr_alike hR h hy

theorem resolveExprs_alike (hR : OneToOne R) {s s' : Scopes} (h : s.Like R s') {es es' : List Expr} (he : Expr.LikeList R es es') :
    Pass.Alike (SymbolTable.Like R) Eq (resolveExprs s es) (resolveExprs s' es') := by
  match he with
  | .nil => exact .pure rfl
  | .cons hx hxs => exact .bind (resolveExpr_alike hR h hx) fun _ _ _ => resolveExprs_alike hR h hxs

end

mutual

theorem resolveStmt_alike (hR : OneToOne R) {s s' : Scopes} (h : s.Like R s') {x x' : Stmt} (hx : x.Like R x') :
    Pass.Alike (SymbolTable.Like R) (Scopes.Like R) (resolveStmt s x) (resolveStmt s' x') := by
  match hx with
  | .empty => exact .pure h
  | .ifThen hc hy | .loop hc hy =>
    exact .bind (resolveExpr_alike hR h hc) fun _ _ _ => .bind (resolveStmt_alike hR h.enter hy) fun _ _ _ => .pure h
  | .ifElse hc hy hz =>
    exact .bind (resolveExpr_alike hR h hc) fun _ _ _ => .bind (resolveStmt_alike hR h.enter hy) fun _ _ _ =>
      .bind (resolveStmt_alike hR h.enter hz) fun _ _ _ => .pure h
  | .ret => exact .pure h
  | .retValue he | .expr he => exact .bind (resolveExpr_alike hR h he) fun _ _ _ => .pure h
  | .decl hb => exact define_alike h hb
  | .init hb he => exact .bind (resolveExpr_alike hR h he) fun _ _ _ => define_alike h hb
  | .array hb _ => exact define_alike h hb
  | .block hxs => exact .bind (resolveStmts_alike hR h.enter hxs) fun _ _ _ => .pure h

theorem resolveStmts_alike (hR : OneToOne R) {s s' : Scopes} (h : s.Like R s') {xs xs' : List Stmt} (hxs : Stmt.LikeList R xs xs') :
    Pass.Alike (SymbolTable.Like R) Eq (resolveStmts s xs) (resolveStmts s' xs') := by
  match hxs with
  | .nil => exact .pure rfl
  | .cons hx hxs => exact .bind (resolveStmt_alike hR h hx) fun _ _ h => resolveStmts_alike hR h hxs

end

theorem resolve_alike (hR : OneToOne R) {fs fs' : List Func} (h : List.Forall₂ (Func.Like R) fs fs') :
    Pass.Alike (SymbolTable.Like R) Eq (resolve fs) (resolve fs') := by
  induction h with
  | nil => exact .pure rfl
  | cons hf _ ih =>
    refine .bind (A := Eq) ?_ fun _ _ _ => ih
    exact .bind (defineAll_alike Scopes.Like.root.enter hf.params) fun _ _ h =>
      resolveStmts_alike hR h.enter hf.body

end Scopes

/-! ## Types -/

section Typing

variable {R : NodeId → NodeId → Prop}

/-- Nodes that correspond have the same type. -/
abbrev TypeTable.Like (R : NodeId → NodeId → Prop) (t t' : TypeTable) : Prop := Table.Like R Eq t t'

structure Names.Like (R : NodeId → NodeId → Prop) (m m' : Names) : Prop where
  functions : m.functions.Like m'.functions
  symbols : m.symbols.Like R m'.symbols

theorem declaredType_alike {m m' : Names} (h : m.Like R m') {i i' : NodeId} (hi : R i i') {n n' : Ident}
    (hn : n.name = n'.name) : Pass.Alike (TypeTable.Like R) Eq (declaredType m i n) (declaredType m' i' n') := by
  refine .bind .get fun t t' ht => ?_
  have htype : (m.symbols.get? i).bind t.get? = (m'.symbols.get? i').bind t'.get? := by
    have hd := h.symbols i i' hi
    revert hd
    generalize m.symbols.get? i = a, m'.symbols.get? i' = a'
    rintro (hd | _)
    · have := ht _ _ hd
      revert this
      rw [Option.bind_some, Option.bind_some]
      generalize t.get? _ = b, t'.get? _ = b'
      rintro (rfl | _) <;> rfl
    · rfl
  rw [htype, hn]
  split
  · exact .pure rfl
  · exact .reject

theorem binaryType_alike (op : BinaryOp) (o o' : Span) (lhs rhs : Ty) :
    Pass.Alike (TypeTable.Like R) Eq (binaryType op o lhs rhs) (binaryType op o' lhs rhs) := by
  unfold binaryType
  split
  · exact .reject
  · exact .pure rfl

theorem unaryType_alike (op : UnaryOp) (o o' : Span) (ty : Ty) :
    Pass.Alike (TypeTable.Like R) Eq (unaryType op o ty) (unaryType op o' ty) := by
  unfold unaryType
  split
  · exact .pure rfl
  · exact .reject

theorem signatureOf_alike {m m' : Names} (h : m.Like R m') {n n' : Ident} (hn : n.name = n'.name) (given : Nat) :
    Pass.Alike (TypeTable.Like R) Signature.Like (signatureOf m n given) (signatureOf m' n' given) := by
  unfold signatureOf
  rw [hn]
  have hs := h.functions _ _ (rfl : n'.name = n'.name)
  revert hs
  generalize m.functions.get? n'.name = a, m'.functions.get? n'.name = a'
  rintro (hs | _)
  · dsimp only
    rw [hs.1]
    split
    · exact .pure hs
    · exact .reject
  · exact .reject

theorem record_alike (hR : OneToOne R) {i i' : NodeId} (hi : R i i') (ty : Ty) :
    Pass.Alike (TypeTable.Like R) Eq (record i ty) (record i' ty) :=
  .bind (.update fun _ _ ht => ht.insert (fun _ _ hj => hR hj hi) rfl) fun _ _ _ => .pure rfl

mutual

theorem typeExpr_alike (hR : OneToOne R) {m m' : Names} (h : m.Like R m') {e e' : Expr} (he : e.Like R e') :
    Pass.Alike (TypeTable.Like R) Eq (typeExpr m e) (typeExpr m' e') := by
  match he with
  | .int hs | .float hs | .string hs => exact record_alike hR hs _
  | .var hs hn =>
    refine .bind (declaredType_alike h hs hn) ?_
    rintro ty _ rfl
    exact record_alike hR hs ty
  | .index hs hn hx =>
    refine .bind (typeExpr_alike hR h hx) ?_
    rintro found _ rfl
    refine .guard (.bind (declaredType_alike h hs hn) ?_)
    rintro ty _ rfl
    split
    · exact record_alike hR hs _
    · rw [hn]
      exact .reject
  | .call hs hn hxs =>
    rw [typeExpr, typeExpr, hxs.length]
    refine .bind (signatureOf_alike h hn _) fun s s' hsig => ?_
    rw [hsig.1, hsig.2]
    exact .bind (typeArgs_alike hR h hn _ hxs _) fun _ _ _ => record_alike hR hs _
  | .unary hs hx =>
    refine .bind (typeExpr_alike hR h hx) ?_
    rintro found _ rfl
    refine .bind (unaryType_alike _ _ _ _) ?_
    rintro ty _ rfl
    exact record_alike hR hs ty
  | .binary hs hx hy =>
    refine .bind (typeExpr_alike hR h hx) ?_
    rintro lhs _ rfl
    refine .bind (typeExpr_alike hR h hy) ?_
    rintro rhs _ rfl
    refine .bind (binaryType_alike _ _ _ _ _) ?_
    rintro ty _ rfl
    exact record_alike hR hs ty

theorem typeArgs_alike (hR : OneToOne R) {m m' : Names} (h : m.Like R m') {n n' : Ident} (hn : n.name = n'.name) (i : Nat)
    {es es' : List Expr} (hes : Expr.LikeList R es es') (params : List Ty) :
    Pass.Alike (TypeTable.Like R) Eq (typeArgs m n i es params) (typeArgs m' n' i es' params) := by
  match hes, params with
  | .nil, _ => exact .pure rfl
  | .cons _ _, [] => exact .pure rfl
  | .cons hx hxs, _ :: _ =>
    rw [typeArgs, typeArgs]
    refine .bind (typeExpr_alike hR h hx) ?_
    rintro given _ rfl
    rw [hn]
    exact .guard (typeArgs_alike hR h hn _ hxs _)

end

theorem typeBinder_alike (hR : OneToOne R) {m m' : Names} {b b' : Binder} (hb : b.Like R b') :
    Pass.Alike (TypeTable.Like R) Eq (typeBinder m b none) (typeBinder m' b' none) := by
  refine .bind (scalarOf_alike hb.type) ?_
  rintro s _ rfl
  exact .bind (record_alike hR hb.site _) fun _ _ _ => .pure rfl

theorem typeBinder_init_alike (hR : OneToOne R) {m m' : Names} (h : m.Like R m') {b b' : Binder}
    (hb : b.Like R b') {e e' : Expr} (he : e.Like R e') :
    Pass.Alike (TypeTable.Like R) Eq (typeBinder m b (some e)) (typeBinder m' b' (some e')) := by
  refine .bind (scalarOf_alike hb.type) ?_
  rintro s _ rfl
  refine .bind (typeExpr_alike hR h he) ?_
  rintro found _ rfl
  rw [hb.name]
  exact .guard (.bind (record_alike hR hb.site _) fun _ _ _ => .pure rfl)

mutual

theorem typeStmt_alike (hR : OneToOne R) {m m' : Names} (h : m.Like R m') {x x' : Stmt} (hx : x.Like R x') :
    Pass.Alike (TypeTable.Like R) Eq (typeStmt m x) (typeStmt m' x') := by
  match hx with
  | .empty | .ret => exact .pure rfl
  | .ifThen hc hy | .loop hc hy =>
    exact .bind (typeExpr_alike hR h hc) fun _ _ _ => typeStmt_alike hR h hy
  | .ifElse hc hy hz =>
    exact .bind (typeExpr_alike hR h hc) fun _ _ _ => .bind (typeStmt_alike hR h hy) fun _ _ _ =>
      typeStmt_alike hR h hz
  | .retValue he | .expr he => exact .bind (typeExpr_alike hR h he) fun _ _ _ => .pure rfl
  | .decl hb => exact typeBinder_alike hR hb
  | .init hb he => exact typeBinder_init_alike hR h hb he
  | .array hb hs =>
    refine .bind (scalarOf_alike hb.type) ?_
    rintro element _ rfl
    exact .bind (record_alike hR hs _) fun _ _ _ => .bind (record_alike hR hb.site _) fun _ _ _ => .pure rfl
  | .block hxs =>
    rw [typeStmt, typeStmt]
    exact typeStmts_alike hR h hxs

theorem typeStmts_alike (hR : OneToOne R) {m m' : Names} (h : m.Like R m') {xs xs' : List Stmt}
    (hxs : Stmt.LikeList R xs xs') : Pass.Alike (TypeTable.Like R) Eq (typeStmts m xs) (typeStmts m' xs') := by
  match hxs with
  | .nil => exact .pure rfl
  | .cons hx hxs => exact .bind (typeStmt_alike hR h hx) fun _ _ _ => typeStmts_alike hR h hxs

end

theorem typeParams_alike (hR : OneToOne R) {m m' : Names} {bs bs' : List Binder}
    (hbs : List.Forall₂ (Binder.Like R) bs bs') :
    Pass.Alike (TypeTable.Like R) Eq (typeParams m bs) (typeParams m' bs') := by
  induction hbs with
  | nil => exact .pure rfl
  | cons hb _ ih => exact .bind (typeBinder_alike hR hb) fun _ _ _ => ih

theorem typeProgram_alike (hR : OneToOne R) {m m' : Names} (h : m.Like R m') {fs fs' : List Func}
    (hfs : List.Forall₂ (Func.Like R) fs fs') :
    Pass.Alike (TypeTable.Like R) Eq (typeProgram m fs) (typeProgram m' fs') := by
  induction hfs with
  | nil => exact .pure rfl
  | cons hf _ ih =>
    refine .bind (A := Eq) ?_ fun _ _ _ => ih
    exact .bind (typeParams_alike hR hf.params) fun _ _ _ => typeStmts_alike hR h hf.body

end Typing

/-! ## Programs -/

/-- Analyses that agree on nodes that correspond. -/
structure Analysis.Like (R : NodeId → NodeId → Prop) (a a' : Analysis) : Prop where
  functions : a.functions.Like a'.functions
  symbols : a.symbols.Like R a'.symbols
  types : a.types.Like R a'.types

/-- Two analyses end alike: with the same fault, or with tables that agree. -/
inductive AnalysedAlike (R : NodeId → NodeId → Prop) :
    Except SemanticError Analysis → Except SemanticError Analysis → Prop
  | ok {a a' : Analysis} (h : a.Like R a') : AnalysedAlike R (.ok a) (.ok a')
  | error {e e' : SemanticError} (h : e.fault = e'.fault) : AnalysedAlike R (.error e) (.error e')

/-- **Programs that differ in numbers and places only are analysed alike.** -/
theorem analyze_alike {R : NodeId → NodeId → Prop} (hR : OneToOne R) (functions : FunctionTable) {p p' : Program}
    (h : List.Forall₂ (Func.Like R) p.functions p'.functions) :
    AnalysedAlike R (analyze functions p) (analyze functions p') := by
  have hself : functions.Like functions := by
    rintro n _ rfl
    cases functions.get? n with
    | none => exact .none
    | some s => exact .some ⟨rfl, rfl⟩
  have hfs := declareFunctions_alike h _ _ hself
  unfold analyze
  revert hfs
  generalize (declareFunctions p.functions).run functions = r, (declareFunctions p'.functions).run functions = r'
  rintro (⟨-, hfs⟩ | he)
  · have hss := resolve_alike hR h .empty .empty Table.like_empty
    dsimp only
    revert hss
    generalize (resolve p.functions).run .empty = r, (resolve p'.functions).run .empty = r'
    rintro (⟨-, hss⟩ | he)
    · have hnames : Names.Like R ⟨_, _⟩ ⟨_, _⟩ := ⟨hfs, hss⟩
      have hts := typeProgram_alike hR hnames h .empty .empty Table.like_empty
      dsimp only
      revert hts
      generalize (typeProgram _ p.functions).run .empty = r, (typeProgram _ p'.functions).run .empty = r'
      rintro (⟨-, hts⟩ | he)
      · exact .ok ⟨hfs, hss, hts⟩
      · exact .error he
    · exact .error he
  · exact .error he

end MicroC
