import MicroC.Proofs.Analysis.Typed
import MicroC.Proofs.Emission.Writing

/-!
# When emissions succeed

Code is emitted for integers only. What an emission of an analysed program looks up is always there: the tables
have all nodes of the program, and the frame has every declaration that is in scope. So it fails only for what
stands in the program.

* `Answers`: when an emission succeeds, what it does with the variables of the frame, and how it fails.
* `Plain`: an emission that succeeds and leaves the variables alone.
* `HaveCode`: what has to hold of expressions, declarations and conditions for them to have code.
* `coded_expr`, `coded_stmt`: what is emitted for expressions and statements.
* **`coded_functions`**: what is emitted for functions succeeds exactly when all their parts have code.
-/

namespace MicroC

open Emit Convention

/-! ## Conditions -/

mutual

/-- The conditions of a statement. -/
def Stmt.conditions : Stmt → List Expr
  | .empty _ | .ret .. | .expr .. | .decl .. | .array .. => []
  | .ite _ c t none => c :: t.conditions
  | .ite _ c t (some e) => c :: (t.conditions ++ e.conditions)
  | .loop _ c b => c :: b.conditions
  | .block _ body => Stmt.conditionsAll body

def Stmt.conditionsAll : List Stmt → List Expr
  | [] => []
  | s :: ss => s.conditions ++ Stmt.conditionsAll ss

end

/-- All conditions in a program. -/
def Program.conditions (p : Program) : List Expr := p.functions.flatMap fun f => Stmt.conditionsAll f.body

/-! ## How emissions end -/

/-- A fault of the program, and not a gap in what emission looks up. -/
def EmissionFault.Founded : EmissionFault → Prop
  | .unsupported _ | .invalidAssignmentTarget => True
  | .unallocatedVariable _ | .missingEntry .. => False

/-- An emission that succeeds exactly when `ok` holds, from every frame with the variables `s`. Its value is as
`R` says, and the variables behind it are `s'`; if it fails, then with a fault of the program. -/
structure Answers {α : Type} (x : Emit α) (R : α → Prop) (ok : Prop) (s s' : List NodeId) : Prop where
  success : ok → ∀ l : Layout, l.frame.slots = s → ∃ out, x l = .ok out
  sound : ∀ {l : Layout} {out}, l.frame.slots = s → x l = .ok out →
    ok ∧ R out.value ∧ out.layout.frame.slots = s'
  failure : ∀ {l : Layout} {e}, l.frame.slots = s → x l = .error e → e.fault.Founded

/-- An emission that succeeds and leaves the variables alone. -/
def Plain {α : Type} (x : Emit α) : Prop := ∀ s, Answers x (fun _ => True) True s s

/-- An emission of code for a part of a program. -/
abbrev Coded (x : Emit Unit) (ok : Prop) (s s' : List NodeId) : Prop := Answers x (fun _ => True) ok s s'

namespace Answers

variable {α β : Type} {x : Emit α} {R : α → Prop} {Q : β → Prop} {ok ok' : Prop} {s s' s'' : List NodeId}

theorem congr (h : Answers x R ok s s') (hok : ok' ↔ ok) : Answers x R ok' s s' :=
  ⟨fun hk => h.success (hok.1 hk), fun hl hx => (h.sound hl hx).imp_left hok.2, h.failure⟩

theorem bind {f : α → Emit β} (h : Answers x R ok s s') (hf : ∀ v, R v → Answers (f v) Q ok' s' s'') :
    Answers (x >>= f) Q (ok ∧ ok') s s'' := by
  refine ⟨fun hk l hl => ?_, fun {l out} hl hout => ?_, fun {l e} hl herr => ?_⟩
  · obtain ⟨a, ha⟩ := h.success hk.1 l hl
    obtain ⟨-, hv, hs⟩ := h.sound hl ha
    obtain ⟨b, hb⟩ := (hf _ hv).success hk.2 a.layout hs
    exact ⟨_, Emit.bind_eq_ok.2 ⟨a, b, ha, hb, rfl⟩⟩
  · obtain ⟨a, b, ha, hb, rfl⟩ := Emit.bind_eq_ok.1 hout
    obtain ⟨hk, hv, hs⟩ := h.sound hl ha
    obtain ⟨hk', hv', hs'⟩ := (hf _ hv).sound hs hb
    exact ⟨⟨hk, hk'⟩, hv', hs'⟩
  · change Emit.bind x f l = _ at herr
    unfold Emit.bind at herr
    cases hx : x l with
    | error e' =>
      rw [hx] at herr
      cases herr
      exact h.failure hl hx
    | ok a =>
      obtain ⟨-, hv, hs⟩ := h.sound hl hx
      rw [hx] at herr
      dsimp only at herr
      cases hfa : f a.value a.layout with
      | error e' =>
        rw [hfa] at herr
        cases herr
        exact (hf _ hv).failure hs hfa
      | ok b =>
        rw [hfa] at herr
        cases herr

theorem after {f : α → Emit β} (h : Answers x R True s s') (hf : ∀ v, R v → Answers (f v) Q ok s' s'') :
    Answers (x >>= f) Q ok s s'' := (h.bind hf).congr (and_iff_right trivial).symm

theorem before {f : α → Emit β} (h : Answers x R ok s s') (hf : ∀ v, R v → Answers (f v) Q True s' s'') :
    Answers (x >>= f) Q ok s s'' := (h.bind hf).congr (and_iff_left trivial).symm

theorem pure {v : α} (h : R v) : Answers (Pure.pure v) R True s s := by
  refine ⟨fun _ l _ => ⟨_, rfl⟩, fun {l out} hl hout => ?_, fun _ herr => ?_⟩
  · obtain rfl := Emit.pure_eq_ok.1 hout
    exact ⟨trivial, h, hl⟩
  · cases herr

theorem fail {fault : EmissionFault} {span : Option Span} (h : fault.Founded) :
    Answers (Emit.fail fault span : Emit α) R False s s' := by
  refine ⟨fun hk => hk.elim, fun _ hout => absurd hout Emit.fail_ne_ok, fun _ herr => ?_⟩
  cases herr
  exact h

theorem unsupported {what : Construct} {span : Span} : Answers (Emit.unsupported what span : Emit α) R False s s' :=
  fail trivial

theorem invalidTarget {span : Option Span} :
    Answers (Emit.fail .invalidAssignmentTarget span : Emit α) R False s s' := fail trivial

end Answers

section Primitives

variable {α β : Type} {x : Emit α} {f : α → Emit β}

theorem Plain.bind (h : Plain x) (hf : ∀ v, Plain (f v)) : Plain (x >>= f) :=
  fun s => (h s).after fun v _ => hf v s

theorem plain_pure (v : α) : Plain (Pure.pure v : Emit α) := fun _ => .pure trivial

theorem coded_modifyFrame {f : Frame → Frame} {s s' : List NodeId} (h : ∀ fr, fr.slots = s → (f fr).slots = s') :
    Coded (modifyFrame f) True s s' := by
  refine ⟨fun _ l _ => ⟨_, rfl⟩, fun {l out} hl hout => ?_, fun _ herr => ?_⟩
  · cases hout
    exact ⟨trivial, trivial, h _ hl⟩
  · cases herr

theorem plain_modifyFrame {f : Frame → Frame} (h : ∀ fr, (f fr).slots = fr.slots) : Plain (modifyFrame f) :=
  fun _ => coded_modifyFrame fun fr hfr => (h fr).trans hfr

theorem plain_pushTemps (n : Nat) : Plain (modifyFrame (·.pushTemps n)) := plain_modifyFrame fun _ => rfl

theorem plain_popTemps (n : Nat) : Plain (modifyFrame (·.popTemps n)) := plain_modifyFrame fun _ => rfl

theorem plain_setPadded (p : Bool) : Plain (modifyFrame (·.setPadded p)) := plain_modifyFrame fun _ => rfl

theorem answers_frame (s : List NodeId) : Answers frame (fun fr => fr.slots = s) True s s := by
  refine ⟨fun _ l _ => ⟨_, rfl⟩, fun {l out} hl hout => ?_, fun _ herr => ?_⟩
  · cases hout
    exact ⟨trivial, hl, hl⟩
  · cases herr

theorem plain_frame : Plain frame := fun s =>
  ⟨(answers_frame s).success, fun hl hx => ⟨trivial, trivial, ((answers_frame s).sound hl hx).2.2⟩,
    (answers_frame s).failure⟩

theorem plain_freshLabel (suffix : String) : Plain (freshLabel suffix) := fun _ =>
  ⟨fun _ _ _ => ⟨_, rfl⟩, fun hl hx => by cases hx; exact ⟨trivial, trivial, hl⟩, fun _ hx => by cases hx⟩

theorem plain_instruction (opcode : Opcode) (operands : List String) (comment : String) :
    Plain (instruction opcode operands comment) := fun _ =>
  ⟨fun _ _ _ => ⟨_, rfl⟩, fun hl hx => by cases hx; exact ⟨trivial, trivial, hl⟩, fun _ hx => by cases hx⟩

theorem plain_label (name comment : String) (isGlobal : Bool) : Plain (label name comment isGlobal) := fun _ =>
  ⟨fun _ _ _ => ⟨_, rfl⟩, fun hl hx => by cases hx; exact ⟨trivial, trivial, hl⟩, fun _ hx => by cases hx⟩

theorem plain_ite {p : Prop} [Decidable p] {x y : Emit α} (hx : Plain x) (hy : Plain y) :
    Plain (if p then x else y) := by
  split
  · exact hx
  · exact hy

theorem plain_push (operand comment : String) : Plain (Emit.push operand comment) :=
  (plain_instruction _ _ _).bind fun _ => plain_pushTemps 1

theorem plain_pop (r comment : String) : Plain (Emit.pop r comment) :=
  (plain_instruction _ _ _).bind fun _ => plain_popTemps 1

theorem plain_shrinkStack (n : Nat) (comment : String) : Plain (shrinkStack n comment) :=
  plain_ite (plain_pure ()) (plain_instruction _ _ _)

theorem plain_growStack (comment : String) : Plain (growStack comment) := plain_instruction _ _ _

theorem plain_alignFrame : Plain alignFrame :=
  plain_frame.bind fun _ => plain_ite (plain_pure ())
    ((plain_growStack _).bind fun _ => plain_setPadded true)

theorem plain_intLiteral (v : Int64) : Plain (intLiteral v) :=
  plain_ite (plain_push _ _) ((plain_instruction _ _ _).bind fun _ => plain_push _ _)

theorem plain_arithmetic (opcode : Opcode) (op : BinaryOp) : Plain (arithmetic opcode op) :=
  (plain_pop _ _).bind fun _ => (plain_pop _ _).bind fun _ => (plain_instruction _ _ _).bind fun _ => plain_push _ _

theorem plain_division (result : String) (op : BinaryOp) : Plain (division result op) :=
  (plain_pop _ _).bind fun _ => (plain_pop _ _).bind fun _ => (plain_instruction _ _ _).bind fun _ =>
    (plain_instruction _ _ _).bind fun _ => plain_push _ _

theorem plain_comparison (op : BinaryOp) : Plain (comparison op) :=
  (plain_pop _ _).bind fun _ => (plain_pop _ _).bind fun _ => (plain_instruction _ _ _).bind fun _ =>
    (plain_instruction _ _ _).bind fun _ => (plain_instruction _ _ _).bind fun _ =>
      (plain_instruction _ _ _).bind fun _ => plain_push _ _

theorem plain_power : Plain power :=
  (plain_freshLabel _).bind fun _ => (plain_freshLabel _).bind fun _ => (plain_pop _ _).bind fun _ =>
    (plain_pop _ _).bind fun _ => (plain_instruction _ _ _).bind fun _ => (plain_label _ _ _).bind fun _ =>
      (plain_instruction _ _ _).bind fun _ => (plain_instruction _ _ _).bind fun _ =>
        (plain_instruction _ _ _).bind fun _ => (plain_instruction _ _ _).bind fun _ =>
          (plain_instruction _ _ _).bind fun _ => (plain_label _ _ _).bind fun _ => plain_push _ _

theorem plain_operator (op : BinaryOp) : Plain (operator op) := by
  cases op with
  | add | sub | mul => exact plain_arithmetic _ _
  | div | mod => exact plain_division _ _
  | pow => exact plain_power
  | _ => exact plain_comparison _

theorem plain_sign (op : UnaryOp) : Plain (sign op) := by
  cases op with
  | plus => exact plain_pure ()
  | neg => exact (plain_pop _ _).bind fun _ => (plain_instruction _ _ _).bind fun _ => plain_push _ _

theorem plain_store (slot : String) (n : Ident) : Plain (Emit.store slot n) :=
  (plain_instruction _ _ _).bind fun _ => plain_instruction _ _ _

theorem plain_popArguments (rs : List String) : Plain (popArguments rs) := by
  induction rs with
  | nil => exact plain_pure ()
  | cons r rs ih => exact (plain_pop _ _).bind fun _ => ih

theorem plain_branchUnlessTrue (target : String) : Plain (branchUnlessTrue target) :=
  (plain_pop _ _).bind fun _ => (plain_instruction _ _ _).bind fun _ => plain_instruction _ _ _

theorem plain_saveRegisters (rs : List String) : Plain (saveRegisters rs) := by
  induction rs with
  | nil => exact plain_pure ()
  | cons r rs ih => exact (plain_instruction _ _ _).bind fun _ => ih

theorem plain_restoreRegisters (rs : List String) : Plain (restoreRegisters rs) := by
  induction rs with
  | nil => exact plain_pure ()
  | cons r rs ih => exact (plain_instruction _ _ _).bind fun _ => ih

end Primitives

/-! ## Expressions -/

/-- An expression that emission does not reject for its form. -/
def Expr.Simple : Expr → Prop
  | .float .. | .string .. | .index .. => False
  | .binary _ .assign _ x _ => ∃ s n, x = .var s n
  | _ => True

/-- An expression that emission does not reject, apart from its parts. -/
structure Expr.HasCode (a : Analysis) (e : Expr) : Prop where
  simple : e.Simple
  value : ∃ ty, a.types.get? e.id = some ty ∧ ty.IsValue

theorem Expr.hasCode_iff {a : Analysis} {e : Expr} :
    e.HasCode a ↔ e.Simple ∧ ∃ ty, a.types.get? e.id = some ty ∧ ty.IsValue :=
  ⟨fun h => ⟨h.simple, h.value⟩, fun h => ⟨h.1, h.2⟩⟩

/-- Expressions whose types in the table are those by the rules. -/
def Recorded (a : Analysis) (D : List Decl) (es : List Expr) : Prop :=
  ∀ e ∈ es, ∃ ty, a.types.get? e.id = some ty ∧ HasType a.names D e ty

section Expressions

variable {a : Analysis} {E : List Expr} {D : List Decl} {s s' : List NodeId}

theorem Recorded.mono {es fs : List Expr} (h : Recorded a D es) (hsub : ∀ e ∈ fs, e ∈ es) : Recorded a D fs :=
  fun e he => h e (hsub e he)

theorem answers_typeOf {node : NodeId} {ty : Ty} (h : a.types.get? node = some ty) :
    Answers (typeOf a node) (· = ty) True s s := by
  unfold typeOf
  rw [h]
  exact .pure rfl

theorem coded_expectValue {e : Expr} (h : ∃ ty, a.types.get? e.id = some ty) :
    Coded (expectValue a e) (∃ ty, a.types.get? e.id = some ty ∧ ty.IsValue) s s := by
  obtain ⟨ty, hty⟩ := h
  have hok : (∃ ty, a.types.get? e.id = some ty ∧ ty.IsValue) ↔ ty.IsValue := by simp [hty]
  refine Answers.congr ((answers_typeOf hty).after fun ty' hv => ?_) hok
  subst hv
  match ty' with
  | .scalar .int => exact (Answers.pure trivial).congr (iff_true_intro (.inl rfl))
  | .scalar .void => exact (Answers.pure trivial).congr (iff_true_intro (.inr rfl))
  | .scalar .float | .scalar .string | .array .. =>
    refine Answers.unsupported.congr (iff_false_intro ?_)
    rintro (h | h) <;> cases h

theorem slotNumber?_of_mem {d : NodeId} {slots : List NodeId} (h : d ∈ slots) :
    ∃ n, Frame.slotNumber? d slots = some n := by
  induction slots with
  | nil => cases h
  | cons e es ih =>
    rw [Frame.slotNumber?]
    split
    · exact ⟨_, rfl⟩
    · next hne => exact ih ((List.mem_cons.1 h).resolve_left hne)

theorem answers_slotOf {use : NodeId} {d : NodeId} (n : Ident) (hd : a.symbols.get? use = some d) (hs : d ∈ s) :
    Answers (slotOf a use n) (fun _ => True) True s s := by
  unfold slotOf
  rw [hd]
  refine (answers_frame s).after fun fr hfr => ?_
  obtain ⟨m, hm⟩ := slotNumber?_of_mem (hfr ▸ hs)
  rw [show fr.offset? d = _ from congrArg (Option.map _) hm]
  exact .pure trivial

theorem plain_callEnd (name : String) (arity words : Nat) : Plain (do
    popArguments (argumentRegisters.take arity)
    instruction .call [name] s!"Call '{name}'"
    shrinkStack words "Drop stack arguments"
    modifyFrame (·.popTemps words)
    Emit.push returnRegister "Push return value") :=
  (plain_popArguments _).bind fun _ => (plain_instruction _ _ _).bind fun _ => (plain_shrinkStack _ _).bind fun _ =>
    (plain_popTemps words).bind fun _ => plain_push _ _

theorem coded_call {name : String} {arity : Nat} {arguments : Emit Unit} {ok : Prop} (h : Coded arguments ok s s) :
    Coded (Emit.call name arity arguments) ok s s := by
  refine (plain_frame s).after fun fr _ => ?_
  have hrest := fun words => h.before fun _ _ => plain_callEnd name arity words s
  dsimp only
  split
  · exact (plain_growStack _ s).after fun _ _ => (plain_pushTemps 1 s).after fun _ _ => hrest _
  · exact hrest _

/-- The target of an assignment has the type of the assignment. -/
theorem Recorded.value_of_assign (hn : Numbered E D) {st sx : Site} {sp : Span} {n : Ident} {y : Expr}
    (h : Recorded a D (Expr.binary st .assign sp (.var sx n) y).subs)
    (hv : ∃ ty, a.types.get? st.id = some ty ∧ ty.IsValue) : ∃ ty, a.types.get? sx.id = some ty ∧ ty.IsValue := by
  obtain ⟨ty, hty, htype⟩ := h _ List.mem_cons_self
  obtain ⟨ty', hty', hv⟩ := hv
  obtain ⟨tx, htx, hxtype⟩ := h (.var sx n) (List.mem_cons_of_mem _ List.mem_cons_self)
  cases hty.symm.trans hty'
  refine ⟨tx, htx, ?_⟩
  cases htype with
  | assign hx _ => exact hx.unique (fun _ hd _ hd' => hn.decl_id_eq hd hd') hxtype ▸ hv
  | comparison ho _ _ _ => cases ho
  | arithmetic hne _ _ _ _ => exact absurd rfl hne

mutual

/-- **What is emitted for an expression**, if the declarations that it uses are in the frame. -/
theorem coded_expr (hn : Numbered E D) {e : Expr} (hrec : Recorded a D e.subs) (hu : Bound a.names D s e.uses) :
    Coded (Emit.expr a e) (∀ x ∈ e.subs, x.HasCode a) s s := by
  have hself : ∃ ty, a.types.get? e.id = some ty := (hrec e e.mem_subs_self).imp fun _ h => h.1
  match e with
  | .int st v =>
    refine ((coded_expectValue hself).before fun _ _ => plain_intLiteral v s).congr ?_
    simp [Expr.subs, Expr.hasCode_iff, Expr.Simple]
  | .float .. | .string .. | .index .. =>
    exact Answers.unsupported.congr (iff_false_intro fun h => (h _ List.mem_cons_self).simple)
  | .var st n =>
    obtain ⟨d, -, hd, hs⟩ := hu ⟨st.id, n.name⟩ List.mem_cons_self
    refine ((coded_expectValue hself).before fun _ _ => (answers_slotOf n hd hs).after fun _ _ =>
      plain_push _ _ s).congr ?_
    simp [Expr.subs, Expr.hasCode_iff, Expr.Simple]
  | .unary st op sp x =>
    have hx := coded_expr hn (e := x) (hrec.mono fun y hy => List.mem_cons_of_mem _ hy) hu
    refine ((coded_expectValue hself).bind fun _ _ => hx.before fun _ _ => plain_sign op s).congr ?_
    simp [Expr.subs, Expr.hasCode_iff, Expr.Simple]
  | .binary st op sp x y =>
    have hy := coded_expr hn (e := y) (hrec.mono fun z hz => List.mem_cons_of_mem _ (List.mem_append_right _ hz))
      (hu.mono (fun u hu => List.mem_append_right _ hu) fun _ hi => hi)
    by_cases hop : op = .assign
    · subst hop
      cases x with
      | var sx n =>
        obtain ⟨d, -, hd, hs⟩ := hu ⟨sx.id, n.name⟩ (List.mem_append_left _ List.mem_cons_self)
        refine ((coded_expectValue hself).bind fun _ _ => (answers_slotOf n hd hs).after fun _ _ =>
          hy.before fun _ _ => plain_store _ n s).congr ?_
        -- The target is not emitted. Its type is that of the assignment.
        have htarget := hrec.value_of_assign hn
        simp only [Expr.subs, List.mem_cons, List.cons_append, List.nil_append, forall_eq_or_imp, Expr.hasCode_iff,
          Expr.Simple, true_and]
        exact ⟨fun h => ⟨h.1.2, h.2.2⟩, fun h => ⟨⟨⟨sx, n, rfl⟩, h.1⟩, htarget h.1, h.2⟩⟩
      | _ =>
        refine ((coded_expectValue hself).bind fun _ _ => Answers.invalidTarget).congr (iff_of_false ?_ fun h => h.2)
        intro h
        obtain ⟨sx, n, hx⟩ := (h _ List.mem_cons_self).simple
        cases hx
    · have hx := coded_expr hn (e := x)
        (hrec.mono fun z hz => List.mem_cons_of_mem _ (List.mem_append_left _ hz))
        (hu.mono (fun u hu => List.mem_append_left _ hu) fun _ hi => hi)
      have hboth := hx.bind fun _ _ => hy.before fun _ _ => plain_operator op s
      have hsimple : (Expr.binary st op sp x y).Simple := by
        cases op with
        | assign => exact absurd rfl hop
        | _ => trivial
      rw [Emit.expr.eq_def]
      simp only [if_neg hop]
      refine ((coded_expectValue hself).bind fun _ _ => hboth).congr ?_
      simp only [Expr.subs, List.forall_mem_cons, List.forall_mem_append, Expr.hasCode_iff, hsimple, true_and]
  | .call st f args =>
    have hin : a.functions.contains f.name = true := by
      obtain ⟨ty, -, hty⟩ := hrec _ List.mem_cons_self
      cases hty with
      | call hs _ =>
        rw [Table.contains, show a.functions.get? f.name = _ from hs]
        rfl
    have hargs : Coded (Emit.arguments a args) _ s s := coded_arguments hn (hrec.mono fun y hy => List.mem_cons_of_mem _ hy) hu
    rw [Emit.expr]
    simp only [if_pos hin]
    refine ((coded_expectValue hself).bind fun _ _ => coded_call hargs).congr ?_
    simp only [Expr.subs, List.forall_mem_cons, Expr.hasCode_iff, Expr.Simple, true_and]

theorem coded_arguments (hn : Numbered E D) {es : List Expr} (hrec : Recorded a D (Expr.subsList es))
    (hu : Bound a.names D s (Expr.usesList es)) :
    Coded (Emit.arguments a es) (∀ x ∈ Expr.subsList es, x.HasCode a) s s := by
  match es with
  | [] => exact (plain_pure () s).congr (iff_true_intro (by simp [Expr.subsList]))
  | e :: es =>
    have he := coded_expr hn (e := e) (hrec.mono fun x hx => List.mem_append_left _ hx)
      (hu.mono (fun u hu => List.mem_append_left _ hu) fun _ hi => hi)
    have hes : Coded (Emit.arguments a es) _ s s := coded_arguments hn (hrec.mono fun x hx => List.mem_append_right _ hx)
      (hu.mono (fun u hu => List.mem_append_right _ hu) fun _ hi => hi)
    refine (hes.bind fun _ _ => he).congr ?_
    rw [Expr.subsList, List.forall_mem_append, and_comm]

end

end Expressions

/-! ## Statements -/

section Statements

variable {a : Analysis} {exit : String} {E : List Expr} {D : List Decl} {s s' : List NodeId}

theorem coded_int {i : NodeId} {f : Ty → Emit Unit} (h : ∃ ty, a.types.get? i = some ty)
    (hint : Coded (f .int) True s s) (hother : ∀ ty, ty ≠ .int → Coded (f ty) False s s) :
    Coded (typeOf a i >>= f) (a.types.get? i = some .int) s s := by
  obtain ⟨ty, hty⟩ := h
  rw [hty, Option.some.injEq]
  refine (answers_typeOf hty).after fun ty' hv => ?_
  subst hv
  by_cases heq : ty' = .int
  · exact heq ▸ hint.congr (iff_true_intro heq)
  · exact (hother ty' heq).congr (iff_false_intro heq)

theorem coded_expectCondition {c : Expr} (h : ∃ ty, a.types.get? c.id = some ty) :
    Coded (expectCondition a c) (a.types.get? c.id = some .int) s s := by
  refine coded_int h (.pure trivial) fun ty hne => ?_
  match ty with
  | .scalar .int => exact absurd rfl hne
  | .scalar .void | .scalar .float | .scalar .string | .array .. => exact .unsupported

theorem coded_expectInt {b : Binder} {what : Ty → Construct} (h : ∃ ty, a.types.get? b.site.id = some ty) :
    Coded (expectInt a b what) (a.types.get? b.site.id = some .int) s s := by
  refine coded_int h (.pure trivial) fun ty hne => ?_
  match ty with
  | .scalar .int => exact absurd rfl hne
  | .scalar .void | .scalar .float | .scalar .string | .array .. => exact .unsupported

theorem coded_release (outer : Frame) : Coded (modifyFrame (·.release outer)) True s outer.slots :=
  coded_modifyFrame fun _ _ => rfl

theorem coded_scope {body : Emit Unit} {ok : Prop} (h : Coded body ok s s') : Coded (scope body) ok s s := by
  refine (answers_frame s).after fun outer houter => h.before fun _ _ => (plain_frame s').after fun inner _ => ?_
  subst houter
  exact (coded_release outer).after fun _ _ => plain_shrinkStack _ _ _

theorem coded_reserve (b : Binder) {init : Option Expr} {ok : Prop}
    (h : ∀ e, init = some e → Coded (Emit.expr a e) ok s s) (hnone : init = none → ok) :
    Coded (reserve a b init) ok s s := by
  cases init with
  | none =>
    refine Answers.congr ((plain_frame s).after fun fr _ => ?_) (iff_true_intro (hnone rfl))
    exact plain_ite (plain_setPadded false) (plain_growStack _) s
  | some e =>
    refine (plain_frame s).after fun fr _ => ?_
    have hrest := (h e rfl).before fun _ _ => plain_popTemps 1 s
    dsimp only
    split
    · exact (plain_shrinkStack _ _ s).after fun _ _ => (plain_setPadded false s).after fun _ _ => hrest
    · exact hrest

/-- All of some expressions, declarations and conditions have code. -/
structure HaveCode (a : Analysis) (es : List Expr) (ds : List Decl) (cs : List Expr) : Prop where
  expr : ∀ e ∈ es, e.HasCode a
  decl : ∀ d ∈ ds, d.length? = none ∧ a.types.get? d.id = some .int
  condition : ∀ c ∈ cs, a.types.get? c.id = some .int

theorem haveCode_iff {es : List Expr} {ds : List Decl} {cs : List Expr} : HaveCode a es ds cs ↔
    (∀ e ∈ es, e.HasCode a) ∧ (∀ d ∈ ds, d.length? = none ∧ a.types.get? d.id = some .int) ∧
      ∀ c ∈ cs, a.types.get? c.id = some .int :=
  ⟨fun h => ⟨h.expr, h.decl, h.condition⟩, fun h => ⟨h.1, h.2.1, h.2.2⟩⟩

theorem haveCode_append (es es' : List Expr) (ds ds' : List Decl) (cs cs' : List Expr) :
    HaveCode a (es ++ es') (ds ++ ds') (cs ++ cs') ↔ HaveCode a es ds cs ∧ HaveCode a es' ds' cs' := by
  simp only [haveCode_iff, List.forall_mem_append]
  tauto

theorem haveCode_nil : HaveCode a [] [] [] := haveCode_iff.2 (by simp)

theorem haveCode_condition (c : Expr) (es : List Expr) (ds : List Decl) (cs : List Expr) :
    HaveCode a (c.subs ++ es) ds (c :: cs) ↔
      a.types.get? c.id = some .int ∧ (∀ x ∈ c.subs, x.HasCode a) ∧ HaveCode a es ds cs := by
  simp only [haveCode_iff, List.forall_mem_append, List.forall_mem_cons]
  tauto

theorem haveCode_exprs {es : List Expr} : HaveCode a es [] [] ↔ ∀ x ∈ es, x.HasCode a := by
  simp [haveCode_iff]

theorem coded_option {init : Option Expr} {e : Expr} (hn : Numbered E D) (hinit : init = some e)
    (hrec : Recorded a D (Expr.subsOption init)) (hu : Bound a.names D s (Expr.usesOption init)) :
    Coded (Emit.expr a e) (∀ x ∈ Expr.subsOption init, x.HasCode a) s s := by
  subst hinit
  exact coded_expr hn hrec hu

mutual

/-- **What is emitted for a statement**, if the declarations around it are in the frame. -/
theorem coded_stmt (hn : Numbered E D) {s : List NodeId} {x : Stmt} {ds : List (List Binder)}
    (hrec : Recorded a D x.exprs) (hdec : ∀ d ∈ x.decls, d ∈ D ∧ ∃ ty, a.types.get? d.id = some ty)
    (hds : Settled D s ds) (hr : ∀ around u, x.Uses ds around u → Resolved a.names around u) :
    Coded (Emit.stmt a exit x) (HaveCode a x.exprs x.decls x.conditions) s
      ((x.declares.map (·.site.id)).reverse ++ s) := by
  match x with
  | .empty _ => exact (plain_pure () s).congr (iff_true_intro haveCode_nil)
  | .ite st c t none =>
    have hc := coded_expr hn (hrec.mono fun e he => List.mem_append_left _ he)
      (hds.bound fun u hu => hr ds u (.condition hu))
    have hint := coded_expectCondition (s := s) ((hrec c (List.mem_append_left _ c.mem_subs_self)).imp fun _ h => h.1)
    have ht := coded_stmt hn (x := t) (hrec.mono fun e he => List.mem_append_right _ he) hdec hds.enter
      fun a u hu => hr a u (.thenBranch hu)
    refine (hint.bind fun _ _ => hc.bind fun _ _ => (plain_freshLabel _ s).after fun _ _ =>
      (plain_freshLabel _ s).after fun _ _ => (plain_branchUnlessTrue _ s).after fun _ _ =>
        (plain_label _ _ _ s).after fun _ _ => (coded_scope ht).before fun _ _ => plain_label _ _ _ s).congr ?_
    exact haveCode_condition c t.exprs t.decls t.conditions
  | .ite st c t (some e) =>
    have hc := coded_expr hn (hrec.mono fun y hy => List.mem_append_left _ hy)
      (hds.bound fun u hu => hr ds u (.condition hu))
    have hint := coded_expectCondition (s := s) ((hrec c (List.mem_append_left _ c.mem_subs_self)).imp fun _ h => h.1)
    have ht := coded_stmt hn (x := t)
      (hrec.mono fun y hy => List.mem_append_right _ (List.mem_append_left _ hy))
      (fun d hd => hdec d (List.mem_append_left _ hd)) hds.enter fun a u hu => hr a u (.thenBranch hu)
    have he := coded_stmt hn (x := e)
      (hrec.mono fun y hy => List.mem_append_right _ (List.mem_append_right _ hy))
      (fun d hd => hdec d (List.mem_append_right _ hd)) hds.enter fun a u hu => hr a u (.elseBranch hu)
    refine (hint.bind fun _ _ => hc.bind fun _ _ => (plain_freshLabel _ s).after fun _ _ =>
      (plain_freshLabel _ s).after fun _ _ => (plain_freshLabel _ s).after fun _ _ =>
        (plain_branchUnlessTrue _ s).after fun _ _ => (plain_label _ _ _ s).after fun _ _ =>
          (coded_scope ht).bind fun _ _ => (plain_instruction _ _ _ s).after fun _ _ =>
            (plain_label _ _ _ s).after fun _ _ => (coded_scope he).before fun _ _ => plain_label _ _ _ s).congr ?_
    have hboth := haveCode_append (a := a) t.exprs e.exprs t.decls e.decls t.conditions e.conditions
    exact (haveCode_condition c _ _ _).trans (and_congr_right' (and_congr_right' hboth))
  | .loop st c b =>
    have hc := coded_expr hn (hrec.mono fun e he => List.mem_append_left _ he)
      (hds.bound fun u hu => hr ds u (.guard hu))
    have hint := coded_expectCondition (s := s) ((hrec c (List.mem_append_left _ c.mem_subs_self)).imp fun _ h => h.1)
    have hb := coded_stmt hn (x := b) (hrec.mono fun e he => List.mem_append_right _ he) hdec hds.enter
      fun a u hu => hr a u (.body hu)
    refine (hint.bind fun _ _ => (plain_freshLabel _ s).after fun _ _ => (plain_freshLabel _ s).after fun _ _ =>
      (plain_freshLabel _ s).after fun _ _ => (plain_label _ _ _ s).after fun _ _ => hc.bind fun _ _ =>
        (plain_branchUnlessTrue _ s).after fun _ _ => (plain_label _ _ _ s).after fun _ _ =>
          (coded_scope hb).before fun _ _ => (plain_instruction _ _ _ s).after fun _ _ =>
            plain_label _ _ _ s).congr ?_
    exact haveCode_condition c b.exprs b.decls b.conditions
  | .ret st none => exact (plain_instruction _ _ _ s).congr (iff_true_intro haveCode_nil)
  | .ret st (some e) =>
    have he := coded_expr hn hrec (hds.bound fun u hu => hr ds u (.ret hu))
    refine (he.before fun _ _ => (plain_pop _ _ s).after fun _ _ => plain_instruction _ _ _ s).congr haveCode_exprs
  | .expr st e =>
    have he := coded_expr hn hrec (hds.bound fun u hu => hr ds u (.expr hu))
    exact (he.before fun _ _ => plain_pop _ _ s).congr haveCode_exprs
  | .decl b init =>
    obtain ⟨-, hty⟩ := hdec _ List.mem_cons_self
    have hres : Coded (reserve a b init) (∀ x ∈ Expr.subsOption init, x.HasCode a) s s := by
      refine coded_reserve b (fun e he => coded_option hn he hrec (hds.bound fun u hu => hr ds u ?_)) ?_
      · cases init with
        | none => cases hu
        | some e => exact .init hu
      · rintro rfl
        simp [Expr.subsOption]
    have hdeclare : Coded (modifyFrame (·.declare b.site.id)) True s (b.site.id :: s) :=
      coded_modifyFrame fun fr hfr => congrArg (b.site.id :: ·) hfr
    refine ((coded_expectInt hty).bind fun _ _ => hres.before fun _ _ => hdeclare.after fun _ _ =>
      plain_alignFrame _).congr ?_
    simp [Stmt.exprs, Stmt.decls, Stmt.conditions, haveCode_iff, Decl.length?, Decl.id, Decl.binder, and_comm]
  | .array b n =>
    refine Answers.unsupported.congr (iff_false_intro fun h => ?_)
    obtain ⟨hlen, -⟩ := h.decl _ List.mem_cons_self
    cases hlen
  | .block st body => exact coded_scope (coded_stmts hn hrec hdec hds.enter fun a u hu => hr a u (.block hu))

theorem coded_stmts (hn : Numbered E D) {s : List NodeId} {xs : List Stmt} {d : List Binder}
    {ds : List (List Binder)} (hrec : Recorded a D (Stmt.exprsAll xs))
    (hdec : ∀ d ∈ Stmt.declsAll xs, d ∈ D ∧ ∃ ty, a.types.get? d.id = some ty) (hds : Settled D s (d :: ds))
    (hr : ∀ around u, Stmt.UsesIn (d :: ds) xs around u → Resolved a.names around u) :
    Coded (Emit.stmts a exit xs) (HaveCode a (Stmt.exprsAll xs) (Stmt.declsAll xs) (Stmt.conditionsAll xs)) s
      (((Stmt.declaresAll xs).map (·.site.id)).reverse ++ s) := by
  match xs with
  | [] => exact (plain_pure () s).congr (iff_true_intro haveCode_nil)
  | x :: xs =>
    have hx := coded_stmt hn (x := x) (hrec.mono fun e he => List.mem_append_left _ he)
      (fun c hc => hdec c (List.mem_append_left _ hc)) hds fun a u hu => hr a u (.here hu)
    have hsettled : Settled D ((x.declares.map (·.site.id)).reverse ++ s) _ := hds.declare (x := x)
      (fun c hc => (hdec c (List.mem_append_left _ hc)).1) fun b hb => List.mem_reverse.2 (List.mem_map_of_mem hb)
    have hxs : Coded (Emit.stmts a exit xs) _ _ _ := coded_stmts hn (hrec.mono fun e he => List.mem_append_right _ he)
      (fun c hc => hdec c (List.mem_append_right _ hc)) hsettled fun a u hu => hr a u (.later hu)
    have hs : ((Stmt.declaresAll (x :: xs)).map (·.site.id)).reverse ++ s =
        ((Stmt.declaresAll xs).map (·.site.id)).reverse ++ ((x.declares.map (·.site.id)).reverse ++ s) := by
      simp [Stmt.declaresAll]
    rw [hs]
    exact (hx.bind fun _ _ => hxs).congr (haveCode_append ..)

end

end Statements

/-! ## Programs -/

section Functions

variable {a : Analysis} {E : List Expr} {D : List Decl} {s : List NodeId}

theorem coded_spillParameters (n : Nat) {bs : List Binder}
    (hdec : ∀ b ∈ bs, ∃ ty, a.types.get? b.site.id = some ty) :
    Coded (spillParameters a n bs) (∀ b ∈ bs, a.types.get? b.site.id = some .int) s
      ((bs.map (·.site.id)).reverse ++ s) := by
  induction bs generalizing n s with
  | nil => exact (plain_pure () s).congr (iff_true_intro (by simp))
  | cons b bs ih =>
    have hdeclare : Coded (modifyFrame (·.declare b.site.id)) True s (b.site.id :: s) :=
      coded_modifyFrame fun fr hfr => congrArg (b.site.id :: ·) hfr
    have hrest := ih (n + 1) (s := b.site.id :: s) fun c hc => hdec c (List.mem_cons_of_mem _ hc)
    have hs : ((b :: bs).map (·.site.id)).reverse ++ s = (bs.map (·.site.id)).reverse ++ b.site.id :: s := by simp
    rw [hs]
    refine ((coded_expectInt (hdec b List.mem_cons_self)).bind fun _ _ => (plain_instruction _ _ _ s).after fun _ _ =>
      hdeclare.after fun _ _ => hrest).congr ?_
    rw [List.forall_mem_cons]

theorem coded_function (hn : Numbered E D) {f : Func} (hrec : Recorded a D f.exprs)
    (hdec : ∀ d ∈ f.decls, d ∈ D ∧ ∃ ty, a.types.get? d.id = some ty)
    (hr : ∀ around u, f.Uses around u → Resolved a.names around u) :
    Coded (Emit.function a f) (HaveCode a f.exprs f.decls (Stmt.conditionsAll f.body)) s
      ((f.params.map (·.site.id)).reverse ++ []) := by
  have hparams : ∀ b ∈ f.params, Decl.variable b none ∈ D ∧ ∃ ty, a.types.get? b.site.id = some ty :=
    fun b hb => hdec _ (List.mem_append_left _ (List.mem_map_of_mem hb))
  have hsettled : Settled D ((f.params.map (·.site.id)).reverse ++ []) [[], f.params] := by
    intro scope hs b hb
    rcases List.mem_pair.1 hs with rfl | rfl
    · cases hb
    · exact ⟨List.mem_append_left _ (List.mem_reverse.2 (List.mem_map_of_mem hb)), _, (hparams b hb).1, rfl⟩
  have hspill := coded_spillParameters (s := []) 0 fun b hb => (hparams b hb).2
  have hstmts : Coded (Emit.stmts a (exitLabel f.name.name) f.body) _ _ _ := coded_stmts hn hrec
    (fun d hd => hdec d (List.mem_append_right _ hd)) hsettled hr
  have hbody := coded_scope hstmts
  have hreset : Coded (modifyFrame fun _ => {}) True s [] := coded_modifyFrame fun _ _ => rfl
  refine (hreset.after fun _ _ => (plain_label _ _ _ _).after fun _ _ => (plain_saveRegisters _ _).after fun _ _ =>
    (plain_instruction _ _ _ _).after fun _ _ => (plain_instruction _ _ _ _).after fun _ _ => hspill.bind fun _ _ =>
      (plain_alignFrame _).after fun _ _ => hbody.before fun _ _ => (plain_instruction _ _ _ _).after fun _ _ =>
        (plain_label _ _ _ _).after fun _ _ => (plain_instruction _ _ _ _).after fun _ _ =>
          (plain_instruction _ _ _ _).after fun _ _ => (plain_restoreRegisters _ _).after fun _ _ =>
            plain_instruction _ _ _ _).congr ?_
  refine (haveCode_append [] f.exprs (f.params.map (.variable · none)) (Stmt.declsAll f.body) []
    (Stmt.conditionsAll f.body)).trans (and_congr_left' ?_)
  simp [haveCode_iff, Decl.length?, Decl.id, Decl.binder]

/-- **What is emitted for functions.** -/
theorem coded_functions (hn : Numbered E D) {fs : List Func} (hrec : Recorded a D (fs.flatMap Func.exprs))
    (hdec : ∀ d ∈ fs.flatMap Func.decls, d ∈ D ∧ ∃ ty, a.types.get? d.id = some ty)
    (hr : ∀ f ∈ fs, ∀ around u, f.Uses around u → Resolved a.names around u) :
    ∃ s', Coded (Emit.functions a fs) (HaveCode a (fs.flatMap Func.exprs) (fs.flatMap Func.decls)
      (fs.flatMap fun f => Stmt.conditionsAll f.body)) s s' := by
  induction fs generalizing s with
  | nil => exact ⟨s, (plain_pure () s).congr (iff_true_intro haveCode_nil)⟩
  | cons f fs ih =>
    rw [List.flatMap_cons] at hrec hdec
    have hf := coded_function (s := s) hn (hrec.mono fun e he => List.mem_append_left _ he)
      (fun d hd => hdec d (List.mem_append_left _ hd)) (hr f List.mem_cons_self)
    obtain ⟨s', hfs⟩ := ih (s := (f.params.map (·.site.id)).reverse ++ [])
      (hrec.mono fun e he => List.mem_append_right _ he) (fun d hd => hdec d (List.mem_append_right _ hd))
      fun g hg => hr g (List.mem_cons_of_mem _ hg)
    exact ⟨s', (hf.bind fun _ _ => hfs).congr (haveCode_append ..)⟩

end Functions

end MicroC
