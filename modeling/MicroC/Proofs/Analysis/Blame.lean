import MicroC.Proofs.Analysis.Calls
import MicroC.Proofs.Parser.Anchors

/-!
# What errors of the analysis blame

Every error of the analysis has a place, which is the start of a token. If its message quotes a name, this token is the
name.

* `SemanticFault.name?`: the name that a message quotes.
* `SemanticError.Anchored`: an error at a token.
* `Pass.Blames`: a pass all of whose errors are at tokens; passes in a row blame what each of them does.
* **`anchored_of_analyze`**: the errors of the analysis of an anchored program are at tokens.
-/

namespace MicroC

/-! ## Errors -/

/-- The name that a message quotes. -/
def SemanticFault.name? : SemanticFault → Option String
  | .unknownType n | .functionRedefinition n | .variableRedefinition n | .undefinedVariable n
  | .initializerMismatch n _ _ | .notAnArray n | .unknownFunction n | .argumentCount n _ _ | .argumentType n _ _ _ =>
    some n
  | .invalidBinaryOperands .. | .invalidUnaryOperand .. | .nonIntegerSubscript _ => none

/-- A place is that of a token, which is the name that is quoted, if one is. -/
def Span.Blames (ts : List Token) (name? : Option String) (sp : Span) : Prop :=
  ∃ t ∈ ts, sp.start = t.span.start ∧ ∀ n ∈ name?, t.lexeme = n

/-- An error at a token. -/
def SemanticError.Anchored (ts : List Token) (e : SemanticError) : Prop :=
  ∃ sp, e.span = some sp ∧ sp.Blames ts e.fault.name?

section Blame

variable {ts : List Token}

theorem Ident.ReadIn.blames {n : Ident} (h : n.ReadIn ts) {name? : Option String} (hname : ∀ m ∈ name?, n.name = m) :
    n.span.Blames ts name? := by
  obtain ⟨t, ht, hlexeme, hspan⟩ := h
  exact ⟨t, ht, by rw [hspan], fun m hm => hlexeme.trans (hname m hm)⟩

theorem Span.StartsIn.blames {sp : Span} (h : sp.StartsIn ts) : sp.Blames ts none := by
  obtain ⟨t, ht, hstart⟩ := h
  exact ⟨t, ht, hstart, by rintro _ ⟨⟩⟩

/-! ## Passes -/

/-- All errors of a pass are at tokens. -/
def Pass.Blames {τ α : Type} (ts : List Token) (x : Pass τ α) : Prop :=
  ∀ t e t', x.run t = (.error e, t') → e.Anchored ts

namespace Pass.Blames

variable {τ α β : Type}

protected theorem pure (a : α) : Blames ts (pure a : Pass τ α) := by
  rintro t e t' ⟨⟩

protected theorem modify (f : τ → τ) : Blames ts (modify f : Pass τ PUnit) := by
  rintro t e t' ⟨⟩

protected theorem set (t : τ) : Blames ts (set t : Pass τ PUnit) := by
  rintro t e t' ⟨⟩

protected theorem reject {fault : SemanticFault} {sp : Span} (h : sp.Blames ts fault.name?) :
    Blames ts (reject fault sp : Pass τ α) := by
  rintro t e t' ⟨⟩
  exact ⟨sp, rfl, h⟩

protected theorem bind {x : Pass τ α} {f : α → Pass τ β} (hx : Blames ts x) (hf : ∀ a, Blames ts (f a)) :
    Blames ts (x >>= f) := by
  intro t e t' h
  rw [run_bind] at h
  cases hrun : x.run t with
  | mk r u =>
    rw [hrun] at h
    cases r with
    | ok a => exact hf a u e t' h
    | error e' =>
      cases h
      exact hx t e t' hrun

/-- A pass that looks at its table. -/
protected theorem get {f : τ → Pass τ β} (hf : ∀ t, Blames ts (f t)) : Blames ts (get >>= f) :=
  fun t e t' h => hf t t e t' h

protected theorem ite {p : Prop} [Decidable p] {x y : Pass τ α} (hx : Blames ts x) (hy : Blames ts y) :
    Blames ts (if p then x else y) := by
  split
  · exact hx
  · exact hy

end Pass.Blames

open Pass

theorem blames_scalarOf {τ : Type} {n : Ident} (hn : n.ReadIn ts) : Blames ts (scalarOf n : Pass τ Scalar) := by
  unfold scalarOf
  split
  · exact .pure _
  · exact .reject (hn.blames fun _ => Option.some.inj)

/-! ## Signatures -/

theorem blames_scalarTypes {ns : List Ident} (hns : ∀ n ∈ ns, n.ReadIn ts) : Blames ts (scalarTypes ns) := by
  induction ns with
  | nil => exact .pure _
  | cons n ns ih =>
    rw [List.forall_mem_cons] at hns
    exact .bind (blames_scalarOf hns.1) fun _ => .bind (ih hns.2) fun _ => .pure _

/-- A function that exists already is blamed on its second declaration. -/
theorem blames_declareFunction {f : Func} (hf : f.Anchored ts) : Blames ts (declareFunction f) := by
  have htypes : ∀ n ∈ f.params.map Binder.type, n.ReadIn ts := List.forall_mem_map.2 fun b hb => (hf.params b hb).type
  refine .bind (blames_scalarTypes htypes) fun _ => .bind (blames_scalarOf hf.returns) fun _ => .get fun t => ?_
  unfold FunctionTable.declare
  split
  · exact .set _
  · next e h =>
    split at h <;> cases h
    rintro t e t' ⟨⟩
    exact ⟨_, rfl, hf.name.blames fun _ => Option.some.inj⟩

theorem blames_declareFunctions {fs : List Func} (hfs : ∀ f ∈ fs, f.Anchored ts) :
    Blames ts (declareFunctions fs) := by
  induction fs with
  | nil => exact .pure _
  | cons f fs ih =>
    rw [List.forall_mem_cons] at hfs
    exact .bind (blames_declareFunction hfs.1) fun _ => ih hfs.2

/-! ## Scopes -/

section Scopes

variable (s : Scopes)

theorem blames_define {n : Ident} (hn : n.ReadIn ts) (id : NodeId) : Blames ts (s.define n id) :=
  .ite (.reject (hn.blames fun _ => Option.some.inj)) (.pure _)

theorem blames_defineAll {bs : List Binder} (hbs : ∀ b ∈ bs, b.Anchored ts) : Blames ts (s.defineAll bs) := by
  induction bs generalizing s with
  | nil => exact .pure _
  | cons b bs ih =>
    rw [List.forall_mem_cons] at hbs
    exact .bind (blames_define s hbs.1.name _) fun t => ih t hbs.2

theorem blames_bindUse (use : NodeId) {n : Ident} (hn : n.ReadIn ts) : Blames ts (s.bindUse use n) := by
  unfold Scopes.bindUse
  split
  · exact .modify _
  · exact .reject (hn.blames fun _ => Option.some.inj)

end Scopes

mutual

theorem blames_resolveExpr (s : Scopes) : (e : Expr) → e.Anchored ts → Blames ts (resolveExpr s e)
  | .int .., _ | .float .., _ | .string .., _ => .pure _
  | .var site _, he => blames_bindUse s site.id he.2
  | .index site _ i, he => .bind (blames_resolveExpr s i he.2.2) fun _ => blames_bindUse s site.id he.2.1
  | .call _ _ args, he => blames_resolveExprs s args he.2.2
  | .unary _ _ _ x, he => blames_resolveExpr s x he.2.2
  | .binary _ _ _ x y, he => .bind (blames_resolveExpr s x he.2.2.1) fun _ => blames_resolveExpr s y he.2.2.2

theorem blames_resolveExprs (s : Scopes) : (es : List Expr) → Expr.AllAnchored ts es → Blames ts (resolveExprs s es)
  | [], _ => .pure _
  | e :: es, hes => .bind (blames_resolveExpr s e hes.1) fun _ => blames_resolveExprs s es hes.2

end

theorem blames_resolveOption (s : Scopes) {e : Option Expr} (he : Expr.OptionAnchored ts e) :
    Blames ts (resolveOption s e) := by
  cases e with
  | none => exact .pure _
  | some e => exact blames_resolveExpr s e (he e rfl)

mutual

theorem blames_resolveStmt (s : Scopes) : (x : Stmt) → x.Anchored ts → Blames ts (resolveStmt s x)
  | .empty _, _ => .pure _
  | .ite _ c x none, h =>
    .bind (blames_resolveExpr s c h.2.1) fun _ => .bind (blames_resolveStmt s.enter x h.2.2) fun _ => .pure _
  | .ite _ c x (some y), h =>
    .bind (blames_resolveExpr s c h.2.1) fun _ => .bind (blames_resolveStmt s.enter x h.2.2.1) fun _ =>
      .bind (blames_resolveStmt s.enter y h.2.2.2) fun _ => .pure _
  | .loop _ c x, h =>
    .bind (blames_resolveExpr s c h.2.1) fun _ => .bind (blames_resolveStmt s.enter x h.2.2) fun _ => .pure _
  | .ret _ _, h => .bind (blames_resolveOption s h.2) fun _ => .pure _
  | .expr _ e, h => .bind (blames_resolveExpr s e h.2) fun _ => .pure _
  | .decl b _, h => .bind (blames_resolveOption s h.2) fun _ => blames_define s h.1.name b.site.id
  | .array b _, h => blames_define s h.1.name b.site.id
  | .block _ xs, h => .bind (blames_resolveStmts s.enter xs h.2) fun _ => .pure _

theorem blames_resolveStmts (s : Scopes) : (xs : List Stmt) → Stmt.AllAnchored ts xs → Blames ts (resolveStmts s xs)
  | [], _ => .pure _
  | x :: xs, h => .bind (blames_resolveStmt s x h.1) fun t => blames_resolveStmts t xs h.2

end

theorem blames_resolve {fs : List Func} (hfs : ∀ f ∈ fs, f.Anchored ts) : Blames ts (resolve fs) := by
  induction fs with
  | nil => exact .pure _
  | cons f fs ih =>
    rw [List.forall_mem_cons] at hfs
    have hf : Blames ts (resolveFunction f) :=
      .bind (blames_defineAll _ hfs.1.params) fun s => blames_resolveStmts s.enter f.body hfs.1.body
    exact .bind hf fun _ => ih hfs.2

/-! ## Types -/

section Typing

variable (names : Names)

theorem blames_record (id : NodeId) (ty : Ty) : Blames ts (record id ty) := .bind (.modify _) fun _ => .pure _

theorem blames_declaredType (use : NodeId) {n : Ident} (hn : n.ReadIn ts) : Blames ts (declaredType names use n) := by
  refine .get fun t => ?_
  split
  · exact .pure _
  · exact .reject (hn.blames fun _ => Option.some.inj)

theorem blames_binaryType (op : BinaryOp) {sp : Span} (hsp : sp.StartsIn ts) (lhs rhs : Ty) :
    Blames ts (binaryType op sp lhs rhs) := .ite (.reject hsp.blames) (.pure _)

theorem blames_unaryType (op : UnaryOp) {sp : Span} (hsp : sp.StartsIn ts) (operand : Ty) :
    Blames ts (unaryType op sp operand) := .ite (.pure _) (.reject hsp.blames)

theorem blames_signatureOf {n : Ident} (hn : n.ReadIn ts) (given : Nat) : Blames ts (signatureOf names n given) := by
  unfold signatureOf
  split
  · exact .reject (hn.blames fun _ => Option.some.inj)
  · exact .ite (.pure _) (.reject (hn.blames fun _ => Option.some.inj))

mutual

theorem blames_typeExpr : (e : Expr) → e.Anchored ts → Blames ts (typeExpr names e)
  | .int site _, _ | .float site _, _ | .string site _, _ => blames_record site.id _
  | .var site n, he => .bind (blames_declaredType names site.id he.2) fun _ => blames_record _ _
  | .index site n i, he => by
    rw [typeExpr]
    refine .bind (blames_typeExpr i he.2.2) fun _ => .ite (.bind (.reject he.2.1.startsIn.blames) fun _ => ?_) ?_
    all_goals
      refine .bind (blames_declaredType names site.id he.2.1) fun _ => ?_
      split
      · exact blames_record _ _
      · exact .reject (he.2.1.blames fun _ => Option.some.inj)
  | .call site n args, he => by
    rw [typeExpr]
    exact .bind (blames_signatureOf names he.2.1 _) fun s =>
      .bind (blames_typeArgs he.2.1 0 args s.params he.2.2) fun _ => blames_record _ _
  | .unary site op _ x, he =>
    .bind (blames_typeExpr x he.2.2) fun _ => .bind (blames_unaryType op he.2.1 _) fun _ => blames_record _ _
  | .binary site op _ x y, he =>
    .bind (blames_typeExpr x he.2.2.1) fun _ => .bind (blames_typeExpr y he.2.2.2) fun _ =>
      .bind (blames_binaryType op he.2.1 _ _) fun _ => blames_record _ _

theorem blames_typeArgs {n : Ident} (hn : n.ReadIn ts) (i : Nat) :
    (es : List Expr) → (params : List Ty) → Expr.AllAnchored ts es → Blames ts (typeArgs names n i es params)
  | e :: es, _ :: params, hes => by
    rw [typeArgs]
    exact .bind (blames_typeExpr e hes.1) fun _ =>
      .ite (.bind (.reject (hn.blames fun _ => Option.some.inj)) fun _ => blames_typeArgs hn _ es params hes.2)
        (blames_typeArgs hn _ es params hes.2)
  | [], _, _ => .pure _
  | _ :: _, [], _ => .pure _

end

theorem blames_typeBinder {b : Binder} (hb : b.Anchored ts) {init : Option Expr} (hinit : Expr.OptionAnchored ts init) :
    Blames ts (typeBinder names b init) := by
  refine .bind (blames_scalarOf hb.type) fun _ => ?_
  cases init with
  | none => exact .bind (blames_record _ _) fun _ => .pure _
  | some e =>
    have hrest (ty : Ty) : Blames ts (record b.site.id ty >>= fun _ => pure ()) :=
      .bind (blames_record _ _) fun _ => .pure _
    refine .bind (blames_typeExpr names e (hinit e rfl)) fun _ => .ite ?_ (hrest _)
    exact .bind (.reject (hb.name.blames fun _ => Option.some.inj)) fun _ => hrest _

theorem blames_typeArray {b : Binder} (hb : b.Anchored ts) (n : ArrayLength) : Blames ts (typeArray b n) :=
  .bind (blames_scalarOf hb.type) fun _ => .bind (blames_record _ _) fun _ => .bind (blames_record _ _) fun _ => .pure _

theorem blames_typeOption {e : Option Expr} (he : Expr.OptionAnchored ts e) : Blames ts (typeOption names e) := by
  cases e with
  | none => exact .pure _
  | some e => exact .bind (blames_typeExpr names e (he e rfl)) fun _ => .pure _

mutual

theorem blames_typeStmt : (x : Stmt) → x.Anchored ts → Blames ts (typeStmt names x)
  | .empty _, _ => .pure _
  | .ite _ c x none, h => .bind (blames_typeExpr names c h.2.1) fun _ => blames_typeStmt x h.2.2
  | .ite _ c x (some y), h =>
    .bind (blames_typeExpr names c h.2.1) fun _ => .bind (blames_typeStmt x h.2.2.1) fun _ =>
      blames_typeStmt y h.2.2.2
  | .loop _ c x, h => .bind (blames_typeExpr names c h.2.1) fun _ => blames_typeStmt x h.2.2
  | .ret _ _, h => blames_typeOption names h.2
  | .expr _ e, h => .bind (blames_typeExpr names e h.2) fun _ => .pure _
  | .decl _ _, h => blames_typeBinder names h.1 h.2
  | .array _ n, h => blames_typeArray h.1 n
  | .block _ xs, h => blames_typeStmts xs h.2

theorem blames_typeStmts : (xs : List Stmt) → Stmt.AllAnchored ts xs → Blames ts (typeStmts names xs)
  | [], _ => .pure _
  | x :: xs, h => .bind (blames_typeStmt x h.1) fun _ => blames_typeStmts xs h.2

end

theorem blames_typeParams {bs : List Binder} (hbs : ∀ b ∈ bs, b.Anchored ts) : Blames ts (typeParams names bs) := by
  induction bs with
  | nil => exact .pure _
  | cons b bs ih =>
    rw [List.forall_mem_cons] at hbs
    exact .bind (blames_typeBinder names hbs.1 .none) fun _ => ih hbs.2

theorem blames_typeProgram {fs : List Func} (hfs : ∀ f ∈ fs, f.Anchored ts) : Blames ts (typeProgram names fs) := by
  induction fs with
  | nil => exact .pure _
  | cons f fs ih =>
    rw [List.forall_mem_cons] at hfs
    have hf : Blames ts (typeFunction names f) :=
      .bind (blames_typeParams names hfs.1.params) fun _ => blames_typeStmts names f.body hfs.1.body
    exact .bind hf fun _ => ih hfs.2

end Typing

/-- **Errors of the analysis are at tokens**, and at the names that they quote. -/
theorem anchored_of_analyze {functions : FunctionTable} {p : Program} (hp : ∀ f ∈ p.functions, f.Anchored ts)
    {e : SemanticError} (h : analyze functions p = .error e) : e.Anchored ts := by
  unfold analyze at h
  split at h
  · next hrun =>
    cases h
    exact blames_declareFunctions hp _ _ _ hrun
  split at h
  · next hrun =>
    cases h
    exact blames_resolve hp _ _ _ hrun
  split at h
  · next hrun =>
    cases h
    exact blames_typeProgram _ hp _ _ _ hrun
  · cases h

end Blame

end MicroC
