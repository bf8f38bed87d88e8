import MicroC.Proofs.Analysis.Calls
import MicroC.Proofs.Ast.Unplaced

/-!
# Analysing programs without places

The analysis writes places into errors and signatures and looks at none of them. So a program without places is
analysed to the same tables without places, or is rejected with the same error.

* `Pass.unplaced`: a pass whose errors have no place; passes in a row lose their places one by one.
* `FunctionTable.unplaced`: signatures without places.
* **`analyze_unplaced`**: the analysis commutes with forgetting places.
-/

namespace MicroC

/-- An error that had a place still has one, but nowhere. -/
def SemanticError.unplaced (e : SemanticError) : SemanticError := { e with span := e.span.map fun _ => .nowhere }

/-! ## Passes -/

namespace Pass

variable {τ α β : Type}

/-- The same pass, with errors without places. -/
def unplaced (x : Pass τ α) : Pass τ α := x.adapt SemanticError.unplaced

@[simp] theorem unplaced_pure (a : α) : (pure a : Pass τ α).unplaced = pure a := rfl

@[simp] theorem unplaced_reject (fault : SemanticFault) (span : Span) :
    (reject fault span : Pass τ α).unplaced = reject fault .nowhere := rfl

theorem run_unplaced (x : Pass τ α) (t : τ) :
    x.unplaced.run t = ((x.run t).1.mapError SemanticError.unplaced, (x.run t).2) := rfl

@[simp] theorem unplaced_bind (x : Pass τ α) (f : α → Pass τ β) :
    (x >>= f).unplaced = x.unplaced >>= fun a => (f a).unplaced := by
  funext t
  show (x >>= f).unplaced.run t = (x.unplaced >>= fun a => (f a).unplaced).run t
  rw [run_bind, run_unplaced, run_unplaced, run_bind]
  cases x.run t with
  | mk r u => cases r <;> rfl

theorem unplaced_ite (p : Prop) [Decidable p] (x y : Pass τ α) :
    (if p then x else y).unplaced = if p then x.unplaced else y.unplaced := apply_ite unplaced p x y

end Pass

theorem scalarOf_unplaced {τ : Type} (n : Ident) : (scalarOf n.unplaced : Pass τ Scalar) = (scalarOf n).unplaced := by
  rw [scalarOf, scalarOf, Ident.unplaced_name]
  cases Scalar.ofName? n.name <;> rfl

/-! ## Scopes -/

namespace Scopes

variable (s : Scopes)

theorem define_unplaced (n : Ident) (id : NodeId) : s.define n.unplaced id = (s.define n id).unplaced := by
  rw [define, define, Ident.unplaced_name]
  split <;> rfl

theorem bindUse_unplaced (use : NodeId) (n : Ident) : s.bindUse use n.unplaced = (s.bindUse use n).unplaced := by
  rw [bindUse, bindUse, Ident.unplaced_name]
  cases s.find? n.name <;> rfl

theorem defineAll_unplaced (bs : List Binder) : s.defineAll (bs.map Binder.unplaced) = (s.defineAll bs).unplaced := by
  induction bs generalizing s with
  | nil => rfl
  | cons b bs ih =>
    rw [List.map_cons, defineAll, defineAll, Pass.unplaced_bind, ← define_unplaced]
    simp only [ih]
    rfl

end Scopes

mutual

theorem resolveExpr_unplaced (s : Scopes) : (e : Expr) → resolveExpr s e.unplaced = (resolveExpr s e).unplaced
  | .int .. | .float .. | .string .. => rfl
  | .var site n => s.bindUse_unplaced site.id n
  | .index site n x => by
    simp only [Expr.unplaced, resolveExpr, Pass.unplaced_bind, resolveExpr_unplaced s x, s.bindUse_unplaced,
      Site.unplaced_id]
  | .call _ _ xs => resolveExprs_unplaced s xs
  | .unary _ _ _ x => resolveExpr_unplaced s x
  | .binary _ _ _ x y => by
    simp only [Expr.unplaced, resolveExpr, Pass.unplaced_bind, resolveExpr_unplaced s x, resolveExpr_unplaced s y]

theorem resolveExprs_unplaced (s : Scopes) :
    (es : List Expr) → resolveExprs s (Expr.unplacedAll es) = (resolveExprs s es).unplaced
  | [] => rfl
  | e :: es => by
    simp only [Expr.unplacedAll, resolveExprs, Pass.unplaced_bind, resolveExpr_unplaced s e,
      resolveExprs_unplaced s es]

end

theorem resolveOption_unplaced (s : Scopes) (e : Option Expr) :
    resolveOption s (e.map Expr.unplaced) = (resolveOption s e).unplaced := by
  cases e with
  | none => rfl
  | some e => exact resolveExpr_unplaced s e

mutual

theorem resolveStmt_unplaced (s : Scopes) : (x : Stmt) → resolveStmt s x.unplaced = (resolveStmt s x).unplaced
  | .empty _ => rfl
  | .ite _ c x none => by
    simp only [Stmt.unplaced, resolveStmt, Pass.unplaced_bind, Pass.unplaced_pure, resolveExpr_unplaced s c,
      resolveStmt_unplaced s.enter x]
  | .ite _ c x (some y) => by
    simp only [Stmt.unplaced, resolveStmt, Pass.unplaced_bind, Pass.unplaced_pure, resolveExpr_unplaced s c,
      resolveStmt_unplaced s.enter x, resolveStmt_unplaced s.enter y]
  | .loop _ c x => by
    simp only [Stmt.unplaced, resolveStmt, Pass.unplaced_bind, Pass.unplaced_pure, resolveExpr_unplaced s c,
      resolveStmt_unplaced s.enter x]
  | .ret _ v => by
    simp only [Stmt.unplaced, resolveStmt, Pass.unplaced_bind, Pass.unplaced_pure, resolveOption_unplaced s v]
  | .expr _ e => by
    simp only [Stmt.unplaced, resolveStmt, Pass.unplaced_bind, Pass.unplaced_pure, resolveExpr_unplaced s e]
  | .decl b init => by
    simp only [Stmt.unplaced, resolveStmt, Pass.unplaced_bind, resolveOption_unplaced s init, Binder.unplaced_name,
      Binder.unplaced_site, Site.unplaced_id, s.define_unplaced]
  | .array b _ => s.define_unplaced b.name b.site.id
  | .block _ xs => by
    simp only [Stmt.unplaced, resolveStmt, Pass.unplaced_bind, Pass.unplaced_pure, resolveStmts_unplaced s.enter xs]

theorem resolveStmts_unplaced (s : Scopes) :
    (xs : List Stmt) → resolveStmts s (Stmt.unplacedAll xs) = (resolveStmts s xs).unplaced
  | [] => rfl
  | x :: xs => by
    simp only [Stmt.unplacedAll, resolveStmts, Pass.unplaced_bind, resolveStmt_unplaced s x,
      resolveStmts_unplaced _ xs]

end

theorem resolve_unplaced (fs : List Func) : resolve (fs.map Func.unplaced) = (resolve fs).unplaced := by
  induction fs with
  | nil => rfl
  | cons f fs ih =>
    have hf : resolveFunction f.unplaced = (resolveFunction f).unplaced := by
      simp only [resolveFunction, Func.unplaced, Pass.unplaced_bind, Scopes.defineAll_unplaced,
        resolveStmts_unplaced]
    simp only [List.map_cons, resolve, Pass.unplaced_bind, hf, ih]

/-! ## Signatures -/

/-- A declared function still has a place, but nowhere. -/
def Signature.unplaced (s : Signature) : Signature := { s with span := s.span.map fun _ => .nowhere }

/-- The same signatures without places. -/
def FunctionTable.unplaced (t : FunctionTable) : FunctionTable := ⟨t.entries.map fun e => (e.1, e.2.unplaced)⟩

namespace FunctionTable

variable (t : FunctionTable)

theorem get?_unplaced (n : String) : t.unplaced.get? n = (t.get? n).map Signature.unplaced := by
  obtain ⟨es⟩ := t
  show (es.map fun e => (e.1, e.2.unplaced)).lookup n = (es.lookup n).map Signature.unplaced
  induction es with
  | nil => rfl
  | cons e es ih =>
    obtain ⟨m, s⟩ := e
    rw [List.map_cons, Table.lookup_cons_ite, Table.lookup_cons_ite, ih]
    split <;> rfl

@[simp] theorem contains_unplaced (n : String) : t.unplaced.contains n = t.contains n := by
  rw [Table.contains, Table.contains, get?_unplaced, Option.isSome_map]

theorem insert_unplaced (n : String) (s : Signature) : t.unplaced.insert n s.unplaced = unplaced (t.insert n s) := by
  obtain ⟨es⟩ := t
  refine congrArg Table.mk ?_
  show Table.insertEntry n s.unplaced (es.map _) = (Table.insertEntry n s es).map fun e => (e.1, e.2.unplaced)
  induction es with
  | nil => rfl
  | cons e es ih =>
    rw [List.map_cons, Table.insertEntry, Table.insertEntry]
    split
    · rfl
    split
    · rfl
    · rw [ih, List.map_cons]

theorem declare_unplaced (s : Signature) :
    declare s.unplaced t.unplaced = ((declare s t).map unplaced).mapError SemanticError.unplaced := by
  have hname : t.unplaced.contains s.unplaced.name = t.contains s.name := t.contains_unplaced s.name
  rw [declare, declare, hname]
  split
  · rfl
  · exact congrArg Except.ok (t.insert_unplaced s.name s)

end FunctionTable

/-- From a table without places a pass ends as another does, without places. -/
def Pass.Loses {α : Type} (x x' : Pass FunctionTable α) : Prop :=
  ∀ t, x'.run t.unplaced = ((x.run t).1.mapError SemanticError.unplaced, (x.run t).2.unplaced)

namespace Pass.Loses

variable {α β : Type}

protected theorem pure (a : α) : Loses (pure a) (pure a) := fun _ => rfl

protected theorem bind {x x' : Pass FunctionTable α} {f f' : α → Pass FunctionTable β} (h : Loses x x')
    (hf : ∀ a, Loses (f a) (f' a)) : Loses (x >>= f) (x' >>= f') := by
  intro t
  rw [run_bind, run_bind, h t]
  cases x.run t with
  | mk r u =>
    cases r with
    | ok a => exact hf a u
    | error e => rfl

/-- What is decided by the table is decided by the table without places. -/
protected theorem get {f f' : FunctionTable → Pass FunctionTable β}
    (h : ∀ t : FunctionTable, (f' t.unplaced).run t.unplaced =
      (((f t).run t).1.mapError SemanticError.unplaced, ((f t).run t).2.unplaced)) :
    Loses (get >>= f) (get >>= f') := h

end Pass.Loses

theorem scalarOf_loses (n : Ident) : Pass.Loses (scalarOf n) (scalarOf n.unplaced) := by
  intro t
  rw [scalarOf, scalarOf, Ident.unplaced_name]
  cases Scalar.ofName? n.name <;> rfl

theorem scalarTypes_loses (ns : List Ident) : Pass.Loses (scalarTypes ns) (scalarTypes (ns.map Ident.unplaced)) := by
  induction ns with
  | nil => exact .pure []
  | cons n ns ih => exact .bind (scalarOf_loses n) fun s => .bind ih fun ss => .pure _

theorem declareFunction_loses (f : Func) : Pass.Loses (declareFunction f) (declareFunction f.unplaced) := by
  have hparams : f.unplaced.params.map Binder.type = (f.params.map Binder.type).map Ident.unplaced := by
    simp only [Func.unplaced, List.map_map]
    rfl
  rw [declareFunction, declareFunction, hparams]
  refine .bind (scalarTypes_loses _) fun params => .bind (scalarOf_loses f.returns) fun returns => .get fun t => ?_
  have hdeclare : FunctionTable.declare ⟨f.unplaced.name.name, params, .scalar returns, some f.unplaced.name.span⟩
      t.unplaced = _ := t.declare_unplaced ⟨f.name.name, params, .scalar returns, some f.name.span⟩
  rw [hdeclare]
  cases FunctionTable.declare ⟨f.name.name, params, .scalar returns, some f.name.span⟩ t <;> rfl

theorem declareFunctions_loses (fs : List Func) :
    Pass.Loses (declareFunctions fs) (declareFunctions (fs.map Func.unplaced)) := by
  induction fs with
  | nil => exact .pure ()
  | cons f fs ih => exact .bind (declareFunction_loses f) fun _ => ih

/-! ## Types -/

/-- The same names, with signatures without places. -/
def Names.unplaced (names : Names) : Names := { names with functions := names.functions.unplaced }

section Typing

variable (names : Names)

theorem declaredType_unplaced (use : NodeId) (n : Ident) :
    declaredType names.unplaced use n.unplaced = (declaredType names use n).unplaced := by
  rw [declaredType, declaredType, Pass.unplaced_bind]
  refine congrArg _ (funext fun t => ?_)
  dsimp only [Names.unplaced]
  cases (names.symbols.get? use).bind t.get? <;> rfl

theorem binaryType_unplaced (op : BinaryOp) (span : Span) (lhs rhs : Ty) :
    binaryType op .nowhere lhs rhs = (binaryType op span lhs rhs).unplaced := by
  rw [binaryType, binaryType]
  split <;> rfl

theorem unaryType_unplaced (op : UnaryOp) (span : Span) (operand : Ty) :
    unaryType op .nowhere operand = (unaryType op span operand).unplaced := by
  rw [unaryType, unaryType]
  split <;> rfl

theorem record_unplaced (id : NodeId) (ty : Ty) : (record id ty).unplaced = record id ty := rfl

theorem signatureOf_unplaced (n : Ident) (given : Nat) :
    signatureOf names.unplaced n.unplaced given = Signature.unplaced <$> (signatureOf names n given).unplaced := by
  rw [signatureOf, signatureOf, Ident.unplaced_name, Names.unplaced, FunctionTable.get?_unplaced]
  cases names.functions.get? n.name with
  | none => rfl
  | some s =>
    show (if given = s.params.length then _ else _) = _
    dsimp only
    split <;> rfl

mutual

theorem typeExpr_unplaced : (e : Expr) → typeExpr names.unplaced e.unplaced = (typeExpr names e).unplaced
  | .int .. | .float .. | .string .. => rfl
  | .var site n => by
    simp only [Expr.unplaced, typeExpr, Pass.unplaced_bind, declaredType_unplaced, record_unplaced, Site.unplaced_id]
  | .index site n x => by
    simp only [Expr.unplaced, typeExpr, Pass.unplaced_bind, typeExpr_unplaced x, Pass.unplaced_ite, Pass.unplaced_reject,
      declaredType_unplaced, Ident.unplaced_name, Ident.unplaced_span, Site.unplaced_id]
    refine congrArg _ (funext fun found => ?_)
    split
    · rfl
    · refine congrArg _ (funext fun ty => ?_)
      cases ty.element? <;> rfl
  | .call site n xs => by
    simp only [Expr.unplaced, typeExpr, Pass.unplaced_bind, signatureOf_unplaced, Expr.length_unplacedAll,
      typeArgs_unplaced, record_unplaced, Site.unplaced_id, bind_map_left, Signature.unplaced]
  | .unary site op span x => by
    simp only [Expr.unplaced, typeExpr, Pass.unplaced_bind, typeExpr_unplaced x, unaryType_unplaced op span,
      record_unplaced, Site.unplaced_id]
  | .binary site op span x y => by
    simp only [Expr.unplaced, typeExpr, Pass.unplaced_bind, typeExpr_unplaced x, typeExpr_unplaced y,
      binaryType_unplaced op span, record_unplaced, Site.unplaced_id]

theorem typeArgs_unplaced (n : Ident) (i : Nat) : (es : List Expr) → (params : List Ty) →
    typeArgs names.unplaced n.unplaced i (Expr.unplacedAll es) params = (typeArgs names n i es params).unplaced
  | [], _ | _ :: _, [] => rfl
  | e :: es, expected :: params => by
    simp only [Expr.unplacedAll, typeArgs, Pass.unplaced_bind, typeExpr_unplaced e, Pass.unplaced_ite,
      Pass.unplaced_reject, typeArgs_unplaced n (i + 1) es params, Ident.unplaced_name, Ident.unplaced_span]

end

theorem typeOption_unplaced (e : Option Expr) :
    typeOption names.unplaced (e.map Expr.unplaced) = (typeOption names e).unplaced := by
  cases e with
  | none => rfl
  | some e =>
    simp only [Option.map_some, typeOption, Pass.unplaced_bind, Pass.unplaced_pure, typeExpr_unplaced]

theorem typeBinder_unplaced (b : Binder) (init : Option Expr) :
    typeBinder names.unplaced b.unplaced (init.map Expr.unplaced) = (typeBinder names b init).unplaced := by
  cases init with
  | none =>
    simp only [Option.map_none, typeBinder, Pass.unplaced_bind, Pass.unplaced_pure, record_unplaced,
      Binder.unplaced_type, Binder.unplaced_site, Site.unplaced_id, scalarOf_unplaced]
  | some e =>
    simp only [Option.map_some, typeBinder, Pass.unplaced_bind, Pass.unplaced_pure, record_unplaced, Pass.unplaced_ite,
      Pass.unplaced_reject, typeExpr_unplaced, Binder.unplaced_type, Binder.unplaced_name, Binder.unplaced_site,
      Ident.unplaced_name, Ident.unplaced_span, Site.unplaced_id, scalarOf_unplaced]

theorem typeArray_unplaced (b : Binder) (n : ArrayLength) :
    typeArray b.unplaced n.unplaced = (typeArray b n).unplaced := by
  simp only [typeArray, Pass.unplaced_bind, Pass.unplaced_pure, record_unplaced, Binder.unplaced_type,
    Binder.unplaced_site, ArrayLength.unplaced_site, ArrayLength.unplaced_value, Site.unplaced_id, scalarOf_unplaced]

mutual

theorem typeStmt_unplaced : (x : Stmt) → typeStmt names.unplaced x.unplaced = (typeStmt names x).unplaced
  | .empty _ => rfl
  | .ite _ c x none => by
    simp only [Stmt.unplaced, typeStmt, Pass.unplaced_bind, typeExpr_unplaced, typeStmt_unplaced x]
  | .ite _ c x (some y) => by
    simp only [Stmt.unplaced, typeStmt, Pass.unplaced_bind, typeExpr_unplaced, typeStmt_unplaced x,
      typeStmt_unplaced y]
  | .loop _ c x => by
    simp only [Stmt.unplaced, typeStmt, Pass.unplaced_bind, typeExpr_unplaced, typeStmt_unplaced x]
  | .ret _ v => typeOption_unplaced names v
  | .expr _ e => typeOption_unplaced names (some e)
  | .decl b init => typeBinder_unplaced names b init
  | .array b n => typeArray_unplaced b n
  | .block _ xs => typeStmts_unplaced xs

theorem typeStmts_unplaced :
    (xs : List Stmt) → typeStmts names.unplaced (Stmt.unplacedAll xs) = (typeStmts names xs).unplaced
  | [] => rfl
  | x :: xs => by
    simp only [Stmt.unplacedAll, typeStmts, Pass.unplaced_bind, typeStmt_unplaced x, typeStmts_unplaced xs]

end

theorem typeParams_unplaced (bs : List Binder) :
    typeParams names.unplaced (bs.map Binder.unplaced) = (typeParams names bs).unplaced := by
  induction bs with
  | nil => rfl
  | cons b bs ih =>
    have hb := typeBinder_unplaced names b none
    rw [Option.map_none] at hb
    simp only [List.map_cons, typeParams, Pass.unplaced_bind, hb, ih]

theorem typeProgram_unplaced (fs : List Func) :
    typeProgram names.unplaced (fs.map Func.unplaced) = (typeProgram names fs).unplaced := by
  induction fs with
  | nil => rfl
  | cons f fs ih =>
    have hf : typeFunction names.unplaced f.unplaced = (typeFunction names f).unplaced := by
      simp only [typeFunction, Func.unplaced, Pass.unplaced_bind, typeParams_unplaced, typeStmts_unplaced]
    simp only [List.map_cons, typeProgram, Pass.unplaced_bind, hf, ih]

end Typing

/-! ## The analysis -/

/-- The same tables, with signatures without places. -/
def Analysis.unplaced (a : Analysis) : Analysis := { a with functions := a.functions.unplaced }

@[simp] theorem Analysis.contains_unplaced (a : Analysis) (n : String) :
    a.unplaced.functions.contains n = a.functions.contains n := a.functions.contains_unplaced n

/-- An outcome of the analysis without places. -/
def unplacedAnalysis (o : Except SemanticError Analysis) : Except SemanticError Analysis :=
  (o.map Analysis.unplaced).mapError SemanticError.unplaced

/-- **The analysis commutes with forgetting places.** -/
theorem analyze_unplaced (t : FunctionTable) (p : Program) :
    analyze t.unplaced p.unplaced = unplacedAnalysis (analyze t p) := by
  rw [analyze, analyze, Program.unplaced, declareFunctions_loses, resolve_unplaced, Pass.run_unplaced]
  cases (declareFunctions p.functions).run t with
  | mk r functions =>
  cases r with
  | error e => rfl
  | ok =>
  dsimp only [Except.mapError]
  cases (resolve p.functions).run .empty with
  | mk r symbols =>
  cases r with
  | error e => rfl
  | ok =>
  dsimp only [Except.mapError]
  rw [show (⟨functions.unplaced, symbols⟩ : Names) = Names.unplaced ⟨functions, symbols⟩ from rfl,
    typeProgram_unplaced, Pass.run_unplaced]
  cases (typeProgram ⟨functions, symbols⟩ p.functions).run .empty with
  | mk r types => cases r <;> rfl

end MicroC
