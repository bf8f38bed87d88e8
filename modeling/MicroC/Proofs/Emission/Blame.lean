import MicroC.Proofs.Analysis.Blame
import MicroC.Proofs.Emission.Answers

/-!
# What errors of an emission blame

An error of an emission that has a place is at the start of a token. If its message quotes a name, this token is the
name.

* `EmissionFault.name?`: the name that a message quotes.
* `EmissionError.Anchored`: an error that is at a token, if it has a place.
* `Emit.Blames`: an emission all of whose errors are at tokens.
* **`anchored_of_generate`**: the errors of emitting an anchored program are at tokens.
-/

namespace MicroC

open Emit Convention

/-- The name that a message quotes. -/
def EmissionFault.name? : EmissionFault → Option String
  | .unallocatedVariable n => some n
  | .unsupported _ | .invalidAssignmentTarget | .missingEntry .. => none

/-- An error that is at a token, if it has a place. -/
def EmissionError.Anchored (ts : List Token) (e : EmissionError) : Prop := ∀ sp ∈ e.span, sp.Blames ts e.fault.name?

/-- All errors of an emission are at tokens. -/
def Emit.Blames {α : Type} (ts : List Token) (x : Emit α) : Prop := ∀ l e, x l = .error e → e.Anchored ts

section Blame

variable {ts : List Token}

/-! ## Emissions -/

namespace Emit.Blames

variable {α β : Type} {x : Emit α}

theorem plain (h : Plain x) : Blames ts x := by
  intro l e he
  obtain ⟨out, hout⟩ := (h l.frame.slots).success trivial l rfl
  rw [hout] at he
  cases he

theorem modifyFrame (f : Frame → Frame) : Blames ts (Emit.modifyFrame f) := by
  rintro l e ⟨⟩

protected theorem bind {f : α → Emit β} (hx : Blames ts x) (hf : ∀ a, Blames ts (f a)) : Blames ts (x >>= f) := by
  intro l e he
  change Emit.bind x f l = _ at he
  unfold Emit.bind at he
  split at he
  · next e' hxl =>
    cases he
    exact hx l e hxl
  · next a _ =>
    split at he
    · next hfa =>
      cases he
      exact hf a.value _ e hfa
    · cases he

theorem after {f : α → Emit β} (h : Plain x) (hf : ∀ a, Blames ts (f a)) : Blames ts (x >>= f) := (plain h).bind hf

theorem before {f : α → Emit β} (hx : Blames ts x) (h : ∀ a, Plain (f a)) : Blames ts (x >>= f) :=
  hx.bind fun a => plain (h a)

protected theorem ite {p : Prop} [Decidable p] {y : Emit α} (hx : Blames ts x) (hy : Blames ts y) :
    Blames ts (if p then x else y) := by
  split
  · exact hx
  · exact hy

theorem fail {fault : EmissionFault} {sp : Option Span} (h : ∀ s ∈ sp, s.Blames ts fault.name?) :
    Blames ts (Emit.fail fault sp : Emit α) := by
  rintro l e ⟨⟩
  exact h

theorem gap {fault : EmissionFault} : Blames ts (Emit.fail fault none : Emit α) := by
  refine fail ?_
  rintro _ ⟨⟩

theorem unsupported {what : Construct} {sp : Span} (h : sp.StartsIn ts) :
    Blames ts (Emit.unsupported what sp : Emit α) := by
  refine fail ?_
  rintro _ ⟨⟩
  exact h.blames

end Emit.Blames

section Lookups

variable (a : Analysis)

theorem blames_typeOf (node : NodeId) : Blames ts (typeOf a node) := by
  unfold typeOf
  split
  · exact .plain (plain_pure _)
  · exact .gap

theorem blames_slotOf (use : NodeId) {n : Ident} (hn : n.ReadIn ts) : Blames ts (slotOf a use n) := by
  unfold slotOf
  split
  · exact .gap
  · refine .after plain_frame fun _ => ?_
    split
    · refine .fail ?_
      rintro _ ⟨⟩
      exact hn.blames fun _ => Option.some.inj
    · exact .plain (plain_pure _)

theorem blames_expectInt {b : Binder} (hb : b.Anchored ts) (what : Ty → Construct) :
    Blames ts (expectInt a b what) := by
  refine .bind (blames_typeOf a _) fun ty => ?_
  split
  · exact .plain (plain_pure _)
  · exact .unsupported hb.name.startsIn

theorem blames_expectValue {e : Expr} (he : e.Anchored ts) : Blames ts (expectValue a e) := by
  refine .bind (blames_typeOf a _) fun ty => ?_
  split
  · exact .plain (plain_pure _)
  · exact .plain (plain_pure _)
  · exact .unsupported he.span

theorem blames_expectCondition {c : Expr} (hc : c.Anchored ts) : Blames ts (expectCondition a c) := by
  refine .bind (blames_typeOf a _) fun ty => ?_
  split
  · exact .plain (plain_pure _)
  · exact .unsupported hc.span

end Lookups

/-! ## Expressions -/

theorem blames_call (name : String) (arity : Nat) {arguments : Emit Unit} (h : Blames ts arguments) :
    Blames ts (call name arity arguments) := by
  have hrest := fun words => h.before fun _ => plain_callEnd name arity words
  refine .after plain_frame fun _ => ?_
  dsimp only
  split
  · exact .after (plain_growStack _) fun _ => .after (plain_pushTemps 1) fun _ => hrest _
  · exact hrest _

section Expressions

variable (a : Analysis)

mutual

theorem blames_expr : (e : Expr) → e.Anchored ts → Blames ts (expr a e)
  | .float .., he | .string .., he => .unsupported he
  | .index .., he => .unsupported he.1
  | .int .., he => (blames_expectValue a he).before fun _ => plain_intLiteral _
  | .var site n, he =>
    (blames_expectValue a he).bind fun _ => (blames_slotOf a site.id he.2).before fun _ => plain_push _ _
  | .unary _ op _ x, he =>
    (blames_expectValue a he).bind fun _ => (blames_expr x he.2.2).before fun _ => plain_sign op
  | .binary _ op _ x y, he => by
    have hy := blames_expr y he.2.2.2
    have hboth := (blames_expr x he.2.2.1).bind fun _ => hy.before fun _ => plain_operator op
    rw [expr.eq_def]
    refine (blames_expectValue a he).bind fun _ => .ite ?_ hboth
    split
    · next site n => exact (blames_slotOf a site.id he.2.2.1.2).bind fun _ => hy.before fun _ => plain_store _ n
    · refine .fail ?_
      rintro _ ⟨⟩
      exact he.2.2.1.span.blames
  | .call _ n args, he => by
    rw [expr]
    have hcall := blames_call n.name args.length (blames_arguments args he.2.2)
    exact (blames_expectValue a he).bind fun _ => .ite hcall .gap

theorem blames_arguments : (es : List Expr) → Expr.AllAnchored ts es → Blames ts (arguments a es)
  | [], _ => .plain (plain_pure ())
  | e :: es, hes => (blames_arguments es hes.2).bind fun _ => blames_expr e hes.1

end

/-! ## Statements -/

theorem blames_scope {body : Emit Unit} (h : Blames ts body) : Blames ts (scope body) :=
  .after plain_frame fun _ => h.bind fun _ => .after plain_frame fun _ =>
    .bind (.modifyFrame _) fun _ => .plain (plain_shrinkStack _ _)

theorem blames_reserve (b : Binder) {init : Option Expr} (hinit : Expr.OptionAnchored ts init) :
    Blames ts (reserve a b init) := by
  cases init with
  | none => exact .after plain_frame fun _ => .ite (.modifyFrame _) (.plain (plain_growStack _))
  | some e =>
    have hrest := (blames_expr a e (hinit e rfl)).before fun _ => plain_popTemps 1
    refine .after plain_frame fun _ => ?_
    dsimp only
    split
    · exact .after (plain_shrinkStack _ _) fun _ => .after (plain_setPadded false) fun _ => hrest
    · exact hrest

theorem blames_declare {b : Binder} (hb : b.Anchored ts) {init : Option Expr} (hinit : Expr.OptionAnchored ts init) :
    Blames ts (declare a b init) :=
  (blames_expectInt a hb _).bind fun _ => (blames_reserve a b hinit).bind fun _ => .bind (.modifyFrame _) fun _ =>
    .plain plain_alignFrame

variable (exit : String)

mutual

theorem blames_stmt : (x : Stmt) → x.Anchored ts → Blames ts (stmt a exit x)
  | .empty _, _ => .plain (plain_pure ())
  | .ite _ c x none, h =>
    (blames_expectCondition a h.2.1).bind fun _ => (blames_expr a c h.2.1).bind fun _ =>
      .after (plain_freshLabel _) fun _ => .after (plain_freshLabel _) fun _ =>
        .after (plain_branchUnlessTrue _) fun _ => .after (plain_label _ _ _) fun _ =>
          (blames_scope (blames_stmt x h.2.2)).before fun _ => plain_label _ _ _
  | .ite _ c x (some y), h =>
    (blames_expectCondition a h.2.1).bind fun _ => (blames_expr a c h.2.1).bind fun _ =>
      .after (plain_freshLabel _) fun _ => .after (plain_freshLabel _) fun _ => .after (plain_freshLabel _) fun _ =>
        .after (plain_branchUnlessTrue _) fun _ => .after (plain_label _ _ _) fun _ =>
          (blames_scope (blames_stmt x h.2.2.1)).bind fun _ => .after (plain_instruction _ _ _) fun _ =>
            .after (plain_label _ _ _) fun _ => (blames_scope (blames_stmt y h.2.2.2)).before fun _ => plain_label _ _ _
  | .loop _ c x, h =>
    (blames_expectCondition a h.2.1).bind fun _ => .after (plain_freshLabel _) fun _ =>
      .after (plain_freshLabel _) fun _ => .after (plain_freshLabel _) fun _ => .after (plain_label _ _ _) fun _ =>
        (blames_expr a c h.2.1).bind fun _ => .after (plain_branchUnlessTrue _) fun _ =>
          .after (plain_label _ _ _) fun _ => (blames_scope (blames_stmt x h.2.2)).bind fun _ =>
            .after (plain_instruction _ _ _) fun _ => .plain (plain_label _ _ _)
  | .ret _ none, _ => .plain (plain_instruction _ _ _)
  | .ret _ (some e), h =>
    (blames_expr a e (h.2 e rfl)).bind fun _ => .after (plain_pop _ _) fun _ => .plain (plain_instruction _ _ _)
  | .expr _ e, h => (blames_expr a e h.2).before fun _ => plain_pop _ _
  | .decl _ _, h => blames_declare a h.1 h.2
  | .array _ _, h => .unsupported h.1.site
  | .block _ xs, h => blames_scope (blames_stmts xs h.2)

theorem blames_stmts : (xs : List Stmt) → Stmt.AllAnchored ts xs → Blames ts (stmts a exit xs)
  | [], _ => .plain (plain_pure ())
  | x :: xs, h => (blames_stmt x h.1).bind fun _ => blames_stmts xs h.2

end

end Expressions

/-! ## Functions -/

section Functions

variable (a : Analysis)

theorem blames_spillParameters (n : Nat) {bs : List Binder} (hbs : ∀ b ∈ bs, b.Anchored ts) :
    Blames ts (spillParameters a n bs) := by
  induction bs generalizing n with
  | nil => exact .plain (plain_pure ())
  | cons b bs ih =>
    rw [List.forall_mem_cons] at hbs
    exact (blames_expectInt a hbs.1 _).bind fun _ => .after (plain_instruction _ _ _) fun _ =>
      .bind (.modifyFrame _) fun _ => ih (n + 1) hbs.2

theorem blames_function {f : Func} (hf : f.Anchored ts) : Blames ts (function a f) :=
  .bind (.modifyFrame _) fun _ => .after (plain_label _ _ _) fun _ => .after (plain_saveRegisters _) fun _ =>
    .after (plain_instruction _ _ _) fun _ => .after (plain_instruction _ _ _) fun _ =>
      (blames_spillParameters a 0 hf.params).bind fun _ => .after plain_alignFrame fun _ =>
        (blames_scope (blames_stmts a _ f.body hf.body)).before fun _ =>
          (plain_instruction _ _ _).bind fun _ => (plain_label _ _ _).bind fun _ =>
            (plain_instruction _ _ _).bind fun _ => (plain_instruction _ _ _).bind fun _ =>
              (plain_restoreRegisters _).bind fun _ => plain_instruction _ _ _

theorem blames_functions {fs : List Func} (hfs : ∀ f ∈ fs, f.Anchored ts) : Blames ts (functions a fs) := by
  induction fs with
  | nil => exact .plain (plain_pure ())
  | cons f fs ih =>
    rw [List.forall_mem_cons] at hfs
    exact (blames_function a hfs.1).bind fun _ => ih hfs.2

end Functions

/-- **Errors of emitting code are at tokens**, and at the names that they quote. -/
theorem anchored_of_generate {a : Analysis} {p : Program} (hp : ∀ f ∈ p.functions, f.Anchored ts) {e : EmissionError}
    (h : generate a p = .error e) : e.Anchored ts := by
  unfold generate at h
  split at h
  · cases h
  · next hrun =>
    cases h
    exact blames_functions a hp _ _ hrun

end Blame

end MicroC
