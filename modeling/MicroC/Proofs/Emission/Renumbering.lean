import MicroC.Compilation
import MicroC.Proofs.Analysis.Renumbering
import MicroC.Proofs.Emission.Labels

/-!
# Code up to numbers

Code holds no number of a node: where a variable is depends on how many were declared before it. Labels are counted,
and from where makes no difference but to their own numbers. So programs that differ in numbers and places only have
the same module.

* `Layout.Like`: layouts whose slots belong to declarations that correspond, and whose labels have numbers that do.
* `Emit.Alike`: emissions that end alike on such layouts, with the same lines up to the numbers of labels.
* `function_alike`: a function behind other functions has the same code.
* **`generate_alike`**: programs that differ in numbers and places only have the same module.
-/

namespace MicroC

/-! ## Emissions -/

/-- Layouts whose slots belong to declarations that correspond, and whose next labels have numbers that do. -/
structure Layout.Like (R : NodeId → NodeId → Prop) (r : Nat → Nat) (l l' : Layout) : Prop where
  slots : List.Forall₂ R l.frame.slots l'.frame.slots
  padded : l.frame.padded = l'.frame.padded
  temps : l.frame.temps = l'.frame.temps
  labels : ∀ k, r (l.labels + k) = l'.labels + k

/-- The same fault; a gap in a table may be at another node. -/
inductive EmissionFault.Like : EmissionFault → EmissionFault → Prop
  | same (f : EmissionFault) : EmissionFault.Like f f
  | missingEntry (t : TableName) (i i' : NodeId) : EmissionFault.Like (.missingEntry t i) (.missingEntry t i')

namespace Emit

/-- Ends of two emissions: both with the same fault, or both with the same lines up to the numbers of labels. -/
inductive EndsAlike {α α' : Type} (R : NodeId → NodeId → Prop) (r : Nat → Nat) (A : α → α' → Prop) :
    Except EmissionError (Emitted α) → Except EmissionError (Emitted α') → Prop
  | ok {a : α} {a' : α'} {lines lines' : List Line} {l l' : Layout} (ha : A a a')
      (hlines : lines' = lines.map (Line.renumber r)) (hl : l.Like R r l') :
      EndsAlike R r A (.ok ⟨a, lines, l⟩) (.ok ⟨a', lines', l'⟩)
  | error {e e' : EmissionError} (he : e.fault.Like e'.fault) : EndsAlike R r A (.error e) (.error e')

/-- From layouts that correspond both emissions end alike. -/
def Alike {α α' : Type} (R : NodeId → NodeId → Prop) (r : Nat → Nat) (A : α → α' → Prop) (x : Emit α) (y : Emit α') :
    Prop := ∀ l l', l.Like R r l' → EndsAlike R r A (x l) (y l')

namespace Alike

variable {R : NodeId → NodeId → Prop} {r : Nat → Nat} {α α' β β' : Type} {A : α → α' → Prop} {B : β → β' → Prop}

protected theorem pure {a : α} {a' : α'} (h : A a a') : Alike R r A (pure a) (pure a') := fun _ _ hl => .ok h rfl hl

theorem fail {f f' : EmissionFault} {span span' : Option Span} (h : f.Like f') :
    Alike R r A (Emit.fail f span) (Emit.fail f' span') := fun _ _ _ => .error h

theorem unsupported {what : Construct} {span span' : Span} :
    Alike R r A (Emit.unsupported what span) (Emit.unsupported what span') := .fail (.same _)

protected theorem bind {x : Emit α} {y : Emit α'} {f : α → Emit β} {g : α' → Emit β'} (h : Alike R r A x y)
    (hfg : ∀ a a', A a a' → Alike R r B (f a) (g a')) : Alike R r B (x >>= f) (y >>= g) := by
  intro l l' hl
  have hends := h l l' hl
  show EndsAlike R r B (Emit.bind x f l) (Emit.bind y g l')
  unfold Emit.bind
  revert hends
  generalize x l = out, y l' = out'
  rintro (⟨ha, rfl, hl⟩ | he)
  · have hends := hfg _ _ ha _ _ hl
    dsimp only
    revert hends
    generalize f _ _ = out, g _ _ = out'
    rintro (⟨hb, rfl, hl⟩ | he)
    · exact .ok hb List.map_append.symm hl
    · exact .error he
  · exact .error he

theorem andThen {x y : Emit Unit} {f : Emit β} {g : Emit β'} (h : Alike R r Eq x y) (hfg : Alike R r B f g) :
    Alike R r B (x >>= fun _ => f) (y >>= fun _ => g) := .bind h fun _ _ _ => hfg

theorem instruction {opcode : Opcode} {operands : List String} {comment : String} (h : opcode.isJump = false) :
    Alike R r Eq (Emit.instruction opcode operands comment) (Emit.instruction opcode operands comment) := by
  refine fun _ _ hl => .ok rfl ?_ hl
  rw [List.map_singleton, Line.renumber, Instruction.renumber_of_not_jump r h]

theorem jump {opcode : Opcode} {target comment : String} (h : opcode.isJump = true) :
    Alike R r Eq (Emit.instruction opcode [target] comment)
      (Emit.instruction opcode [renumberLabel r target] comment) := by
  refine fun _ _ hl => .ok rfl ?_ hl
  rw [List.map_singleton, Line.renumber, Instruction.renumber]
  exact congrArg (fun i => [Line.code i]) (if_pos h).symm

theorem label {name comment : String} {isGlobal : Bool} :
    Alike R r Eq (Emit.label name comment isGlobal) (Emit.label (renumberLabel r name) comment isGlobal) :=
  fun _ _ hl => .ok rfl rfl hl

theorem freshLabel {suffix : String} (hs : '.' ∉ suffix.toList) :
    Alike R r (fun name name' => renumberLabel r name = name') (Emit.freshLabel suffix) (Emit.freshLabel suffix) := by
  intro l l' hl
  refine .ok ?_ rfl ⟨hl.slots, hl.padded, hl.temps, fun k => ?_⟩
  · show renumberLabel r (labelName l.labels suffix) = labelName l'.labels suffix
    rw [renumberLabel_labelName r _ hs]
    exact congrArg (labelName · suffix) (hl.labels 0)
  · have := hl.labels (1 + k)
    rwa [← Nat.add_assoc, ← Nat.add_assoc] at this

theorem withLabel {suffix : String} (hs : '.' ∉ suffix.toList) {f g : String → Emit Unit}
    (h : ∀ name, Alike R r Eq (f name) (g (renumberLabel r name))) :
    Alike R r Eq (Emit.freshLabel suffix >>= f) (Emit.freshLabel suffix >>= g) := by
  refine .bind (.freshLabel hs) ?_
  rintro name _ rfl
  exact h name

theorem modifyFrame {f f' : Frame → Frame}
    (h : ∀ l l' : Layout, l.Like R r l' → Layout.Like R r ⟨f l.frame, l.labels⟩ ⟨f' l'.frame, l'.labels⟩) :
    Alike R r Eq (Emit.modifyFrame f) (Emit.modifyFrame f') := fun l l' hl => .ok rfl rfl (h l l' hl)

theorem pushTemps {n : Nat} : Alike R r Eq (Emit.modifyFrame (·.pushTemps n)) (Emit.modifyFrame (·.pushTemps n)) :=
  .modifyFrame fun _ _ hl => ⟨hl.slots, hl.padded, congrArg (· + n) hl.temps, hl.labels⟩

theorem popTemps {n : Nat} : Alike R r Eq (Emit.modifyFrame (·.popTemps n)) (Emit.modifyFrame (·.popTemps n)) :=
  .modifyFrame fun _ _ hl => ⟨hl.slots, hl.padded, congrArg (· - n) hl.temps, hl.labels⟩

theorem setPadded {p : Bool} : Alike R r Eq (Emit.modifyFrame (·.setPadded p)) (Emit.modifyFrame (·.setPadded p)) :=
  .modifyFrame fun _ _ hl => ⟨hl.slots, rfl, hl.temps, hl.labels⟩

theorem declareSlot {i i' : NodeId} (hi : R i i') :
    Alike R r Eq (Emit.modifyFrame (·.declare i)) (Emit.modifyFrame (·.declare i')) :=
  .modifyFrame fun _ _ hl => ⟨.cons hi hl.slots, hl.padded, hl.temps, hl.labels⟩

theorem push {operand comment : String} : Alike R r Eq (Emit.push operand comment) (Emit.push operand comment) :=
  .andThen (.instruction rfl) .pushTemps

theorem pop {register comment : String} : Alike R r Eq (Emit.pop register comment) (Emit.pop register comment) :=
  .andThen (.instruction rfl) .popTemps

theorem shrinkStack {words : Nat} {comment : String} :
    Alike R r Eq (Emit.shrinkStack words comment) (Emit.shrinkStack words comment) := by
  unfold Emit.shrinkStack
  split
  · exact .pure rfl
  · exact .instruction rfl

theorem growStack {comment : String} : Alike R r Eq (Emit.growStack comment) (Emit.growStack comment) :=
  .instruction rfl

theorem withFrame {f : Frame → Emit α} {f' : Frame → Emit α'}
    (h : ∀ l l' : Layout, l.Like R r l' → Alike R r A (f l.frame) (f' l'.frame)) :
    Alike R r A (Emit.frame >>= f) (Emit.frame >>= f') :=
  .bind (A := fun a a' => ∃ l l' : Layout, l.Like R r l' ∧ a = l.frame ∧ a' = l'.frame)
    (fun l l' hl => .ok ⟨l, l', hl, rfl, rfl⟩ rfl hl) (by
      rintro _ _ ⟨l, l', hl, rfl, rfl⟩
      exact h l l' hl)

theorem scope {x y : Emit Unit} (h : Alike R r Eq x y) : Alike R r Eq (Emit.scope x) (Emit.scope y) := by
  refine .withFrame fun outer outer' ho => .andThen h (.withFrame fun inner inner' hi => ?_)
  have hwords : inner.frame.releasedWords outer.frame = inner'.frame.releasedWords outer'.frame := by
    unfold Frame.releasedWords
    rw [hi.slots.length_eq, hi.padded, ho.slots.length_eq, ho.padded]
  rw [hwords]
  exact .andThen (.modifyFrame fun _ _ hl => ⟨ho.slots, ho.padded, hl.temps, hl.labels⟩) .shrinkStack

theorem withEmptyFrame {x : Emit α} {y : Emit α'} (h : Alike R r A x y) {l l' : Layout}
    (hl : ∀ k, r (l.labels + k) = l'.labels + k) :
    EndsAlike R r A ((Emit.modifyFrame (fun _ => {}) >>= fun _ => x) l)
      ((Emit.modifyFrame (fun _ => {}) >>= fun _ => y) l') := by
  have hends := h ⟨{}, l.labels⟩ ⟨{}, l'.labels⟩ ⟨.nil, rfl, rfl, hl⟩
  show EndsAlike R r A (Emit.bind (Emit.modifyFrame fun _ => {}) _ l) (Emit.bind (Emit.modifyFrame fun _ => {}) _ l')
  unfold Emit.bind Emit.modifyFrame
  dsimp only
  revert hends
  generalize x _ = out, y _ = out'
  rintro (⟨ha, rfl, hl⟩ | he)
  · exact .ok ha rfl hl
  · exact .error he

end Alike

end Emit

/-! ## Expressions -/

theorem Layout.Like.depth {R : NodeId → NodeId → Prop} {r : Nat → Nat} {l l' : Layout} (h : l.Like R r l') :
    l.frame.depth = l'.frame.depth := by
  unfold Frame.depth
  rw [h.slots.length_eq, h.padded, h.temps]

section Expressions

open Emit

variable {R : NodeId → NodeId → Prop} {r : Nat → Nat}

theorem intLiteral_alike (v : Int64) : Alike R r Eq (intLiteral v) (intLiteral v) := by
  unfold intLiteral
  dsimp only
  split
  · exact .push
  · exact .andThen (.instruction rfl) .push

theorem operator_alike (op : BinaryOp) : Alike R r Eq (operator op) (operator op) := by
  have harithmetic : ∀ {opcode : Opcode} {op}, opcode.isJump = false →
      Alike R r Eq (arithmetic opcode op) (arithmetic opcode op) :=
    fun h => .andThen .pop (.andThen .pop (.andThen (.instruction h) .push))
  have hdivision : ∀ result op, Alike R r Eq (division result op) (division result op) :=
    fun _ _ => .andThen .pop (.andThen .pop (.andThen (.instruction rfl) (.andThen (.instruction rfl) .push)))
  have hcomparison : ∀ {op}, (comparisonMove op).isJump = false → Alike R r Eq (comparison op) (comparison op) :=
    fun h => .andThen .pop (.andThen .pop (.andThen (.instruction rfl) (.andThen (.instruction rfl)
      (.andThen (.instruction rfl) (.andThen (.instruction h) .push)))))
  cases op with
  | add | sub | mul => exact harithmetic rfl
  | div | mod => exact hdivision _ _
  | pow =>
    refine .withLabel (by decide) fun again => .withLabel (by decide) fun done => ?_
    exact .andThen .pop (.andThen .pop (.andThen (.instruction rfl) (.andThen .label (.andThen (.instruction rfl)
      (.andThen (.jump rfl) (.andThen (.instruction rfl) (.andThen (.instruction rfl) (.andThen (.jump rfl)
        (.andThen .label .push)))))))))
  | _ => exact hcomparison rfl

theorem sign_alike (op : UnaryOp) : Alike R r Eq (sign op) (sign op) := by
  cases op with
  | plus => exact .pure rfl
  | neg => exact .andThen .pop (.andThen (.instruction rfl) .push)

theorem popArguments_alike (rs : List String) : Alike R r Eq (popArguments rs) (popArguments rs) := by
  induction rs with
  | nil => exact .pure rfl
  | cons r rs ih => exact .andThen .pop ih

theorem call_alike {name : String} {arity : Nat} {x y : Emit Unit} (h : Alike R r Eq x y) :
    Alike R r Eq (call name arity x) (call name arity y) := by
  refine .withFrame fun l l' hl => ?_
  rw [hl.depth]
  dsimp only
  split
  on_goal 1 => refine .andThen .growStack (.andThen .pushTemps ?_)
  all_goals
    exact .andThen h (.andThen (popArguments_alike _) (.andThen (.instruction rfl) (.andThen .shrinkStack
      (.andThen .popTemps .push))))

theorem slotNumber?_alike (hR : OneToOne R) {i i' : NodeId} (hi : R i i') {ds ds' : List NodeId}
    (h : List.Forall₂ R ds ds') : Frame.slotNumber? i ds = Frame.slotNumber? i' ds' := by
  induction h with
  | nil => rfl
  | cons hd hds ih =>
    unfold Frame.slotNumber?
    rw [ih, hds.length_eq]
    simp only [hR hi hd]

variable {a a' : Analysis}

theorem typeOf_alike (ha : a.Like R a') {i i' : NodeId} (hi : R i i') : Alike R r Eq (typeOf a i) (typeOf a' i') := by
  unfold typeOf
  have hty := ha.types i i' hi
  revert hty
  generalize a.types.get? i = t, a'.types.get? i' = t'
  rintro (rfl | _)
  · exact .pure rfl
  · exact .fail (.missingEntry ..)

theorem slotOf_alike (hR : OneToOne R) (ha : a.Like R a') {i i' : NodeId} (hi : R i i') {n n' : Ident}
    (hn : n.name = n'.name) : Alike R r Eq (slotOf a i n) (slotOf a' i' n') := by
  unfold slotOf
  have hd := ha.symbols i i' hi
  revert hd
  generalize a.symbols.get? i = d, a'.symbols.get? i' = d'
  rintro (hd | _)
  · refine .withFrame fun l l' hl => ?_
    unfold Frame.offset?
    rw [slotNumber?_alike hR hd hl.slots, hn]
    split
    · exact .fail (.same _)
    · exact .pure rfl
  · exact .fail (.missingEntry ..)

theorem Expr.Like.id {e e' : Expr} (h : e.Like R e') : R e.id e'.id := by
  cases h <;> assumption

theorem expectValue_alike (ha : a.Like R a') {e e' : Expr} (h : e.Like R e') :
    Alike R r Eq (expectValue a e) (expectValue a' e') := by
  refine .bind (typeOf_alike ha h.id) ?_
  rintro ty _ rfl
  split
  · exact .pure rfl
  · exact .pure rfl
  · exact .unsupported

mutual

theorem expr_alike (hR : OneToOne R) (ha : a.Like R a') {e e' : Expr} (h : e.Like R e') :
    Alike R r Eq (Emit.expr a e) (Emit.expr a' e') := by
  match h with
  | .float _ | .string _ | .index _ _ _ => exact .unsupported
  | .int hs => exact .andThen (expectValue_alike ha (.int hs)) (intLiteral_alike _)
  | .var hs hn =>
    refine .andThen (expectValue_alike ha (.var hs hn)) (.bind (slotOf_alike hR ha hs hn) ?_)
    rintro slot _ rfl
    exact .push
  | .unary hs hx =>
    exact .andThen (expectValue_alike ha (.unary hs hx)) (.andThen (expr_alike hR ha hx) (sign_alike _))
  | .binary hs hx hy =>
    rw [Emit.expr.eq_def, Emit.expr.eq_def]
    refine .andThen (expectValue_alike ha (.binary hs hx hy)) ?_
    split
    · match hx with
      | .var hs hn =>
        refine .bind (slotOf_alike hR ha hs hn) ?_
        rintro slot _ rfl
        refine .andThen (expr_alike hR ha hy) ?_
        unfold store
        rw [hn]
        exact .andThen (.instruction rfl) (.instruction rfl)
      | .int _ | .float _ | .string _ | .index _ _ _ | .call _ _ _ | .unary _ _ | .binary _ _ _ =>
        exact .fail (.same _)
    · exact .andThen (expr_alike hR ha hx) (.andThen (expr_alike hR ha hy) (operator_alike _))
  | .call hs hn hxs =>
    rw [Emit.expr, Emit.expr, ha.functions.contains, hn, hxs.length]
    refine .andThen (expectValue_alike ha (.call hs hn hxs)) ?_
    split
    · exact call_alike (arguments_alike hR ha hxs)
    · exact .fail (.missingEntry ..)

theorem arguments_alike (hR : OneToOne R) (ha : a.Like R a') {es es' : List Expr} (h : Expr.LikeList R es es') :
    Alike R r Eq (Emit.arguments a es) (Emit.arguments a' es') := by
  match h with
  | .nil => exact .pure rfl
  | .cons hx hxs => exact .andThen (arguments_alike hR ha hxs) (expr_alike hR ha hx)

end

end Expressions

/-! ## Statements and functions -/

section Statements

open Emit

variable {R : NodeId → NodeId → Prop} {r : Nat → Nat} {a a' : Analysis}

theorem branchUnlessTrue_alike (target : String) :
    Alike R r Eq (branchUnlessTrue target) (branchUnlessTrue (renumberLabel r target)) :=
  .andThen .pop (.andThen (.instruction rfl) (.jump rfl))

theorem expectCondition_alike (ha : a.Like R a') {c c' : Expr} (h : c.Like R c') :
    Alike R r Eq (expectCondition a c) (expectCondition a' c') := by
  refine .bind (typeOf_alike ha h.id) ?_
  rintro ty _ rfl
  split
  · exact .pure rfl
  · exact .unsupported

theorem expectInt_alike (ha : a.Like R a') {b b' : Binder} (h : b.Like R b') (what : Ty → Construct) :
    Alike R r Eq (expectInt a b what) (expectInt a' b' what) := by
  refine .bind (typeOf_alike ha h.site) ?_
  rintro ty _ rfl
  split
  · exact .pure rfl
  · exact .unsupported

theorem alignFrame_alike : Alike R r Eq alignFrame alignFrame := by
  refine .withFrame fun l l' hl => ?_
  unfold Frame.isAligned
  rw [hl.depth]
  split
  · exact .pure rfl
  · exact .andThen .growStack .setPadded

theorem reserve_alike {b b' : Binder} (h : b.Like R b') : Alike R r Eq (reserve a b none) (reserve a' b' none) := by
  refine .withFrame fun l l' hl => ?_
  rw [hl.padded, h.name]
  split
  · exact .setPadded
  · exact .growStack

theorem reserve_init_alike (hR : OneToOne R) (ha : a.Like R a') {b b' : Binder} {e e' : Expr} (he : e.Like R e') :
    Alike R r Eq (reserve a b (some e)) (reserve a' b' (some e')) := by
  refine .withFrame fun l l' hl => ?_
  rw [hl.padded]
  dsimp only
  split
  on_goal 1 => refine .andThen .shrinkStack (.andThen .setPadded ?_)
  all_goals exact .andThen (expr_alike hR ha he) .popTemps

theorem declare_alike (ha : a.Like R a') {b b' : Binder} (h : b.Like R b') {init init' : Option Expr}
    (hinit : Alike R r Eq (reserve a b init) (reserve a' b' init')) :
    Alike R r Eq (Emit.declare a b init) (Emit.declare a' b' init') :=
  .andThen (expectInt_alike ha h _) (.andThen hinit (.andThen (.declareSlot h.site) alignFrame_alike))

mutual

theorem stmt_alike (hR : OneToOne R) (ha : a.Like R a') (exit : String) {x x' : Stmt} (h : x.Like R x') :
    Alike R r Eq (Emit.stmt a exit x) (Emit.stmt a' (renumberLabel r exit) x') := by
  match h with
  | .empty => exact .pure rfl
  | .ifThen hc hy =>
    refine .andThen (expectCondition_alike ha hc) (.andThen (expr_alike hR ha hc) ?_)
    refine .withLabel (by decide) fun thenLabel => .withLabel (by decide) fun endLabel => ?_
    exact .andThen (branchUnlessTrue_alike _) (.andThen .label (.andThen (.scope (stmt_alike hR ha exit hy)) .label))
  | .ifElse hc hy hz =>
    refine .andThen (expectCondition_alike ha hc) (.andThen (expr_alike hR ha hc) ?_)
    refine .withLabel (by decide) fun thenLabel => .withLabel (by decide) fun elseLabel =>
      .withLabel (by decide) fun endLabel => ?_
    exact .andThen (branchUnlessTrue_alike _) (.andThen .label (.andThen (.scope (stmt_alike hR ha exit hy))
      (.andThen (.jump rfl) (.andThen .label (.andThen (.scope (stmt_alike hR ha exit hz)) .label)))))
  | .loop hc hy =>
    refine .andThen (expectCondition_alike ha hc) ?_
    refine .withLabel (by decide) fun condLabel => .withLabel (by decide) fun bodyLabel =>
      .withLabel (by decide) fun endLabel => ?_
    exact .andThen .label (.andThen (expr_alike hR ha hc) (.andThen (branchUnlessTrue_alike _) (.andThen .label
      (.andThen (.scope (stmt_alike hR ha exit hy)) (.andThen (.jump rfl) .label)))))
  | .ret => exact .jump rfl
  | .retValue he => exact .andThen (expr_alike hR ha he) (.andThen .pop (.jump rfl))
  | .expr he => exact .andThen (expr_alike hR ha he) .pop
  | .decl hb => exact declare_alike ha hb (reserve_alike hb)
  | .init hb he => exact declare_alike ha hb (reserve_init_alike hR ha he)
  | .array _ _ => exact .unsupported
  | .block hxs =>
    rw [Emit.stmt, Emit.stmt]
    exact .scope (stmts_alike hR ha exit hxs)

theorem stmts_alike (hR : OneToOne R) (ha : a.Like R a') (exit : String) {xs xs' : List Stmt}
    (h : Stmt.LikeList R xs xs') : Alike R r Eq (Emit.stmts a exit xs) (Emit.stmts a' (renumberLabel r exit) xs') := by
  match h with
  | .nil => exact .pure rfl
  | .cons hx hxs => exact .andThen (stmt_alike hR ha exit hx) (stmts_alike hR ha exit hxs)

end

theorem saveRegisters_alike (rs : List String) : Alike R r Eq (saveRegisters rs) (saveRegisters rs) := by
  induction rs with
  | nil => exact .pure rfl
  | cons r rs ih => exact .andThen (.instruction rfl) ih

theorem restoreRegisters_alike (rs : List String) : Alike R r Eq (restoreRegisters rs) (restoreRegisters rs) := by
  induction rs with
  | nil => exact .pure rfl
  | cons r rs ih => exact .andThen (.instruction rfl) ih

theorem spillParameters_alike (ha : a.Like R a') (n : Nat) {bs bs' : List Binder}
    (h : List.Forall₂ (Binder.Like R) bs bs') : Alike R r Eq (spillParameters a n bs) (spillParameters a' n bs') := by
  induction h generalizing n with
  | nil => exact .pure rfl
  | cons hb _ ih =>
    rw [spillParameters, spillParameters, hb.name]
    exact .andThen (expectInt_alike ha hb _) (.andThen (.instruction rfl) (.andThen (.declareSlot hb.site) (ih _)))

/-- A function has the same code behind other functions. What their frames were makes no difference. -/
theorem function_alike (hR : OneToOne R) (ha : a.Like R a') {f f' : Func} (h : f.Like R f')
    (hname : renumberLabel r f.name.name = f.name.name) {l l' : Layout}
    (hl : ∀ k, r (l.labels + k) = l'.labels + k) :
    EndsAlike R r Eq (Emit.function a f l) (Emit.function a' f' l') := by
  have hentry : ∀ {comment}, Alike R r Eq (Emit.label f.name.name comment true)
      (Emit.label f.name.name comment true) := by
    intro comment
    have hlabel := @Alike.label R r f.name.name comment true
    rwa [hname] at hlabel
  have hstays : renumberLabel r (exitLabel f.name.name) = exitLabel f.name.name :=
    renumberLabel_of_none r (labelParts?_exitLabel _)
  have hexit : ∀ {comment}, Alike R r Eq (Emit.label (exitLabel f.name.name) comment)
      (Emit.label (exitLabel f.name.name) comment) := by
    intro comment
    have hlabel := @Alike.label R r (exitLabel f.name.name) comment false
    rwa [hstays] at hlabel
  have hbody := stmts_alike (r := r) hR ha (exitLabel f.name.name) h.body
  rw [hstays] at hbody
  unfold Emit.function
  rw [← h.name]
  refine Alike.withEmptyFrame ?_ hl
  refine .andThen hentry (.andThen (saveRegisters_alike _) ?_)
  refine .andThen (.instruction rfl) (.andThen (.instruction rfl) ?_)
  refine .andThen (spillParameters_alike ha 0 h.params) (.andThen alignFrame_alike ?_)
  refine .andThen (.scope hbody) (.andThen (.instruction rfl) (.andThen hexit ?_))
  refine .andThen (.instruction rfl) (.andThen (.instruction rfl) ?_)
  exact .andThen (restoreRegisters_alike _) (.instruction rfl)

theorem functions_alike (hR : OneToOne R) (ha : a.Like R a') {fs fs' : List Func}
    (h : List.Forall₂ (Func.Like R) fs fs') : Alike R id Eq (Emit.functions a fs) (Emit.functions a' fs') := by
  induction h with
  | nil => exact .pure rfl
  | cons hf _ ih => exact .andThen (fun _ _ hl => function_alike hR ha hf (renumberLabel_id _) hl.labels) ih

/-- **Programs that differ in numbers and places only have the same module, or no module for the same fault.** -/
theorem generate_alike (hR : OneToOne R) (ha : a.Like R a') {p p' : Program}
    (h : List.Forall₂ (Func.Like R) p.functions p'.functions) :
    (∃ e e', generate a p = .error e ∧ generate a' p' = .error e' ∧ e.fault.Like e'.fault) ∨
      ∃ m, generate a p = .ok m ∧ generate a' p' = .ok m := by
  have hends := functions_alike hR ha h {} {} ⟨.nil, rfl, rfl, fun _ => rfl⟩
  unfold generate
  revert hends
  generalize Emit.functions a p.functions {} = out, Emit.functions a' p'.functions {} = out'
  rintro (⟨-, rfl, -⟩ | he)
  · rw [Line.map_renumber_id]
    exact .inr ⟨_, rfl, rfl⟩
  · exact .inl ⟨_, _, rfl, rfl, he⟩

end Statements

end MicroC
