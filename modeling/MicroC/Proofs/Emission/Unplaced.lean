import MicroC.Proofs.Analysis.Unplaced
import MicroC.Proofs.Emission.Answers

/-!
# Emitting code for programs without places

Places appear in the errors of an emission and nowhere in the code. So a program without places has the same code,
or none for the same reason.

* `Emit.unplaced`: an emission whose errors have no place; an emission that never fails stays as it is.
* `expr_unplaced`, `stmt_unplaced`, `functions_unplaced`: emission commutes with forgetting places.
* **`generate_unplaced`**: a program without places has the same module.
-/

namespace MicroC

/-- An error that had a place still has one, but nowhere. -/
def EmissionError.unplaced (e : EmissionError) : EmissionError := { e with span := e.span.map fun _ => .nowhere }

namespace Emit

open Convention

variable {α β : Type}

/-! ## Emissions -/

/-- The same emission, with errors without places. -/
def unplaced (x : Emit α) : Emit α := fun l => (x l).mapError EmissionError.unplaced

theorem unplaced_bind (x : Emit α) (f : α → Emit β) :
    (x >>= f).unplaced = x.unplaced >>= fun a => (f a).unplaced := by
  funext l
  show (Emit.bind x f l).mapError _ = Emit.bind x.unplaced (fun a => (f a).unplaced) l
  simp only [Emit.bind, unplaced]
  cases x l with
  | error e => rfl
  | ok a =>
    dsimp only [Except.mapError]
    cases f a.value a.layout <;> rfl

theorem unplaced_of_plain {x : Emit α} (h : Plain x) : x.unplaced = x := by
  funext l
  obtain ⟨out, hout⟩ := (h l.frame.slots).success trivial l rfl
  rw [unplaced, hout]
  rfl

theorem unplaced_modifyFrame (f : Frame → Frame) : (modifyFrame f).unplaced = modifyFrame f := rfl

theorem unplaced_ite (p : Prop) [Decidable p] (x y : Emit α) :
    (if p then x else y).unplaced = if p then x.unplaced else y.unplaced := apply_ite unplaced p x y

theorem scope_unplaced (x : Emit Unit) : scope x.unplaced = (scope x).unplaced := by
  simp only [scope, unplaced_bind, unplaced_of_plain plain_frame, unplaced_of_plain (plain_shrinkStack _ _)]
  rfl

theorem call_unplaced (name : String) (arity : Nat) (x : Emit Unit) :
    call name arity x.unplaced = (call name arity x).unplaced := by
  simp only [call, unplaced_bind, unplaced_ite, unplaced_of_plain plain_frame, unplaced_of_plain (plain_growStack _),
    unplaced_modifyFrame, unplaced_of_plain (plain_popArguments _),
    unplaced_of_plain (plain_instruction _ _ _), unplaced_of_plain (plain_shrinkStack _ _),
    unplaced_of_plain (plain_push _ _)]

section Lookups

variable (a : Analysis)

theorem typeOf_unplaced (node : NodeId) : typeOf a.unplaced node = (typeOf a node).unplaced := by
  rw [typeOf, typeOf, Analysis.unplaced]
  cases a.types.get? node <;> rfl

theorem slotOf_unplaced (use : NodeId) (n : Ident) :
    slotOf a.unplaced use n.unplaced = (slotOf a use n).unplaced := by
  rw [slotOf, slotOf, Analysis.unplaced]
  cases a.symbols.get? use with
  | none => rfl
  | some d =>
    dsimp only
    rw [unplaced_bind, unplaced_of_plain plain_frame]
    refine congrArg _ (funext fun fr => ?_)
    cases fr.offset? d <;> rfl

theorem expectInt_unplaced (b : Binder) (what : Ty → Construct) :
    expectInt a.unplaced b.unplaced what = (expectInt a b what).unplaced := by
  rw [expectInt, expectInt, unplaced_bind, typeOf_unplaced]
  refine congrArg _ (funext fun ty => ?_)
  split <;> rfl

theorem expectValue_unplaced (e : Expr) : expectValue a.unplaced e.unplaced = (expectValue a e).unplaced := by
  rw [expectValue, expectValue, unplaced_bind, typeOf_unplaced, Expr.unplaced_id, Expr.unplaced_span]
  refine congrArg _ (funext fun ty => ?_)
  split <;> rfl

theorem expectCondition_unplaced (e : Expr) :
    expectCondition a.unplaced e.unplaced = (expectCondition a e).unplaced := by
  rw [expectCondition, expectCondition, unplaced_bind, typeOf_unplaced, Expr.unplaced_id, Expr.unplaced_span]
  refine congrArg _ (funext fun ty => ?_)
  split <;> rfl

end Lookups

/-! ## Expressions -/

section Expressions

variable (a : Analysis)

mutual

theorem expr_unplaced : (e : Expr) → expr a.unplaced e.unplaced = (expr a e).unplaced
  | .float .. | .string .. | .index .. => rfl
  | .int site v => by
    have hvalue := expectValue_unplaced a (.int site v)
    rw [Expr.unplaced] at hvalue
    simp only [Expr.unplaced, expr, unplaced_bind, hvalue, unplaced_of_plain (plain_intLiteral v)]
  | .var site n => by
    have hvalue := expectValue_unplaced a (.var site n)
    rw [Expr.unplaced] at hvalue
    simp only [Expr.unplaced, expr, unplaced_bind, hvalue, slotOf_unplaced, Site.unplaced_id,
      unplaced_of_plain (plain_push _ _)]
  | .unary site op span x => by
    have hvalue := expectValue_unplaced a (.unary site op span x)
    rw [Expr.unplaced] at hvalue
    simp only [Expr.unplaced, expr, unplaced_bind, hvalue, expr_unplaced x, unplaced_of_plain (plain_sign op)]
  | .binary site op span x y => by
    have hvalue := expectValue_unplaced a (.binary site op span x y)
    rw [Expr.unplaced] at hvalue
    simp only [Expr.unplaced, expr, unplaced_bind, hvalue, unplaced_ite, expr_unplaced x, expr_unplaced y,
      unplaced_of_plain (plain_operator op)]
    refine congrArg _ (funext fun _ => ?_)
    split
    · cases x with
      | var site n =>
        simp only [Expr.unplaced, unplaced_bind, slotOf_unplaced, Site.unplaced_id,
          unplaced_of_plain (plain_store _ n)]
        rfl
      | _ => rfl
    · rfl
  | .call site n xs => by
    have hvalue := expectValue_unplaced a (.call site n xs)
    rw [Expr.unplaced] at hvalue
    simp only [Expr.unplaced, expr, unplaced_bind, hvalue, unplaced_ite, arguments_unplaced xs, call_unplaced,
      Expr.length_unplacedAll, Ident.unplaced_name, Site.unplaced_id, Analysis.contains_unplaced]
    rfl

theorem arguments_unplaced : (es : List Expr) →
    arguments a.unplaced (Expr.unplacedAll es) = (arguments a es).unplaced
  | [] => rfl
  | e :: es => by
    simp only [Expr.unplacedAll, arguments, unplaced_bind, arguments_unplaced es, expr_unplaced e]

end

end Expressions

/-! ## Statements -/

section Statements

variable (a : Analysis)

theorem reserve_unplaced (b : Binder) (init : Option Expr) :
    reserve a.unplaced b.unplaced (init.map Expr.unplaced) = (reserve a b init).unplaced := by
  cases init with
  | none =>
    simp only [Option.map_none, reserve, unplaced_bind, unplaced_ite, unplaced_of_plain plain_frame,
      unplaced_modifyFrame, unplaced_of_plain (plain_growStack _)]
    rfl
  | some e =>
    simp only [Option.map_some, reserve, unplaced_bind, unplaced_ite, unplaced_of_plain plain_frame,
      unplaced_of_plain (plain_shrinkStack _ _), unplaced_modifyFrame, expr_unplaced]

theorem declare_unplaced (b : Binder) (init : Option Expr) :
    declare a.unplaced b.unplaced (init.map Expr.unplaced) = (declare a b init).unplaced := by
  simp only [declare, unplaced_bind, expectInt_unplaced, reserve_unplaced, unplaced_of_plain plain_alignFrame]
  rfl

mutual

theorem stmt_unplaced (exit : String) : (x : Stmt) → stmt a.unplaced exit x.unplaced = (stmt a exit x).unplaced
  | .empty _ => rfl
  | .ite _ c x none => by
    simp only [Stmt.unplaced, stmt, unplaced_bind, expectCondition_unplaced, expr_unplaced, stmt_unplaced exit x,
      scope_unplaced, unplaced_of_plain (plain_freshLabel _), unplaced_of_plain (plain_branchUnlessTrue _),
      unplaced_of_plain (plain_label _ _ _)]
  | .ite _ c x (some y) => by
    simp only [Stmt.unplaced, stmt, unplaced_bind, expectCondition_unplaced, expr_unplaced, stmt_unplaced exit x,
      stmt_unplaced exit y, scope_unplaced, unplaced_of_plain (plain_freshLabel _),
      unplaced_of_plain (plain_branchUnlessTrue _), unplaced_of_plain (plain_label _ _ _),
      unplaced_of_plain (plain_instruction _ _ _)]
  | .loop _ c x => by
    simp only [Stmt.unplaced, stmt, unplaced_bind, expectCondition_unplaced, expr_unplaced, stmt_unplaced exit x,
      scope_unplaced, unplaced_of_plain (plain_freshLabel _), unplaced_of_plain (plain_branchUnlessTrue _),
      unplaced_of_plain (plain_label _ _ _), unplaced_of_plain (plain_instruction _ _ _)]
  | .ret _ none => rfl
  | .ret _ (some e) => by
    simp only [Stmt.unplaced, Option.map_some, stmt, unplaced_bind, expr_unplaced, unplaced_of_plain (plain_pop _ _),
      unplaced_of_plain (plain_instruction _ _ _)]
  | .expr _ e => by
    simp only [Stmt.unplaced, stmt, unplaced_bind, expr_unplaced, unplaced_of_plain (plain_pop _ _)]
  | .decl b init => declare_unplaced a b init
  | .array .. => rfl
  | .block _ xs => by
    simp only [Stmt.unplaced, stmt, stmts_unplaced exit xs, scope_unplaced]

theorem stmts_unplaced (exit : String) :
    (xs : List Stmt) → stmts a.unplaced exit (Stmt.unplacedAll xs) = (stmts a exit xs).unplaced
  | [] => rfl
  | x :: xs => by
    simp only [Stmt.unplacedAll, stmts, unplaced_bind, stmt_unplaced exit x, stmts_unplaced exit xs]

end

/-! ## Functions -/

theorem spillParameters_unplaced (n : Nat) (bs : List Binder) :
    spillParameters a.unplaced n (bs.map Binder.unplaced) = (spillParameters a n bs).unplaced := by
  induction bs generalizing n with
  | nil => rfl
  | cons b bs ih =>
    simp only [List.map_cons, spillParameters, unplaced_bind, expectInt_unplaced, ih,
      unplaced_of_plain (plain_instruction _ _ _), Binder.unplaced_name, Ident.unplaced_name]
    rfl

theorem function_unplaced (f : Func) : function a.unplaced f.unplaced = (function a f).unplaced := by
  simp only [function, Func.unplaced, unplaced_bind, spillParameters_unplaced, stmts_unplaced, scope_unplaced,
    unplaced_of_plain (plain_label _ _ _), unplaced_of_plain (plain_saveRegisters _),
    unplaced_of_plain (plain_instruction _ _ _), unplaced_of_plain plain_alignFrame,
    unplaced_of_plain (plain_restoreRegisters _), Ident.unplaced_name]
  rfl

theorem functions_unplaced (fs : List Func) :
    functions a.unplaced (fs.map Func.unplaced) = (functions a fs).unplaced := by
  induction fs with
  | nil => rfl
  | cons f fs ih => simp only [List.map_cons, functions, unplaced_bind, function_unplaced, ih]

end Statements

end Emit

/-- **A program without places has the same module**, or none for the same reason. -/
theorem generate_unplaced (a : Analysis) (p : Program) :
    generate a.unplaced p.unplaced = (generate a p).mapError EmissionError.unplaced := by
  rw [generate, generate, Program.unplaced, Emit.functions_unplaced, Emit.unplaced]
  cases Emit.functions a p.functions {} <;> rfl

end MicroC
