import MicroC.Proofs.Analysis.Calls
import MicroC.Proofs.Emission.Code
import MicroC.Proofs.Routine.Spelling

/-!
# Items as they are emitted

* `Written`: the lines that items are written as.
* `Emits`: what an emission writes and where it ends.
* **`exprCode_of_emit`**: what is emitted for an expression are its items.
-/

namespace MicroC

open Convention Emit

/-! ## Lines -/

/-- The lines that items are written as. -/
inductive Written (exit : String) : List Line → List Item → Prop
  | nil : Written exit [] []
  | op {i : Instruction} {o : Op} {ls : List Line} {k : List Item} (hi : i.Spells exit o)
      (h : Written exit ls k) : Written exit (.code i :: ls) (.op o :: k)
  | label {name comment : String} {isGlobal : Bool} {ks : List Kind} {ls : List Line} {k : List Item}
      (h : Written exit ls k) : Written exit (.label name comment isGlobal :: ls) (.label name ks :: k)

section Written

variable {exit : String}

theorem Written.append {ls ms : List Line} {is js : List Item} (h : Written exit ls is)
    (h' : Written exit ms js) : Written exit (ls ++ ms) (is ++ js) := by
  induction h with
  | nil => exact h'
  | op hi _ ih => exact .op hi ih
  | label _ ih => exact .label ih

theorem Written.blocks {ls : List Line} {k : List Item} (h : Written exit ls k) :
    Blocks exit k (splitLines ls).1 (splitLines ls).2 := by
  induction h with
  | nil => exact .nil
  | op hi _ ih => exact .op hi ih
  | @label name comment isGlobal ks ls k _ ih =>
    exact Blocks.label (b := ⟨name, some comment, isGlobal, (splitLines ls).1⟩) ih

end Written

theorem splitLines_append_label (ls ms : List Line) (name comment : String) (isGlobal : Bool) :
    splitLines (ls ++ .label name comment isGlobal :: ms) =
      ((splitLines ls).1, (splitLines ls).2 ++
        { name, comment := some comment, isGlobal, code := (splitLines ms).1 } :: (splitLines ms).2) := by
  induction ls with
  | nil => rfl
  | cons l ls ih => cases l <;> simp [splitLines, ih]

theorem splitLines_code (is : List Instruction) (ls : List Line) :
    splitLines (is.map .code ++ ls) = (is ++ (splitLines ls).1, (splitLines ls).2) := by
  induction is with
  | nil => rfl
  | cons i is ih => simp [splitLines, ih]

/-! ## Emissions -/

section Emissions

variable {α β : Type} {l : Layout}

theorem Emit.bind_eq_ok {x : Emit α} {f : α → Emit β} {out : Emitted β} :
    (x >>= f) l = .ok out ↔ ∃ a b, x l = .ok a ∧ f a.value a.layout = .ok b ∧
      out = ⟨b.value, a.lines ++ b.lines, b.layout⟩ := by
  show Emit.bind x f l = _ ↔ _
  unfold Emit.bind
  cases hx : x l with
  | error e => simp
  | ok a =>
    dsimp only
    cases hf : f a.value a.layout with
    | error e => simp [hf]
    | ok b => simp [hf, eq_comm]

theorem Emit.pure_eq_ok {a : α} {out : Emitted α} : (pure a : Emit α) l = .ok out ↔ out = ⟨a, [], l⟩ := by
  show Except.ok _ = _ ↔ _
  simp [eq_comm]

theorem Emit.fail_ne_ok {fault : EmissionFault} {span : Option Span} {out : Emitted α} :
    (fail fault span : Emit α) l ≠ .ok out := nofun

/-- An emission writes items and ends in a layout. -/
def Emits (exit : String) (x : Emit Unit) (l : Layout) (k : List Item) (l' : Layout) : Prop :=
  ∃ lines, x l = .ok ⟨(), lines, l'⟩ ∧ Written exit lines k

variable {exit : String} {x y : Emit Unit} {l' l'' : Layout} {is js : List Item}

theorem Emits.bind (h : Emits exit x l is l') (h' : Emits exit y l' js l'') :
    Emits exit (x >>= fun _ => y) l (is ++ js) l'' := by
  obtain ⟨ls, hx, hw⟩ := h
  obtain ⟨ms, hy, hw'⟩ := h'
  exact ⟨ls ++ ms, bind_eq_ok.2 ⟨_, _, hx, hy, rfl⟩, hw.append hw'⟩

theorem Emits.eq {out : Emitted Unit} (h : Emits exit x l is l') (hx : x l = .ok out) :
    out.layout = l' ∧ Written exit out.lines is := by
  obtain ⟨lines, heq, hw⟩ := h
  rw [hx] at heq
  cases heq
  exact ⟨rfl, hw⟩

theorem Emits.goes_on {out : Emitted Unit} (h : Emits exit x l is l')
    (hout : (x >>= fun _ => y) l = .ok out) :
    ∃ b, y l' = .ok b ∧ out.layout = b.layout ∧
      ∀ js, Written exit b.lines js → Written exit out.lines (is ++ js) := by
  obtain ⟨a, b, hx, hy, rfl⟩ := Emit.bind_eq_ok.1 hout
  obtain ⟨rfl, hw⟩ := h.eq hx
  exact ⟨b, hy, rfl, fun js hw' => hw.append hw'⟩

theorem freshLabel_bind_eq_ok {f : String → Emit Unit} {suffix : String} {out : Emitted Unit}
    (h : (freshLabel suffix >>= f) l = .ok out) :
    f (labelName l.labels suffix) { l with labels := l.labels + 1 } = .ok out := by
  obtain ⟨a, b, hx, hy, rfl⟩ := Emit.bind_eq_ok.1 h
  cases hx
  exact hy

theorem Emits.congr (h : Emits exit x l is l') (heq : l' = l'') : Emits exit x l is l'' := heq ▸ h

theorem emits_pure : Emits exit (pure ()) l [] l := ⟨[], rfl, .nil⟩

theorem emits_modifyFrame (f : Frame → Frame) :
    Emits exit (modifyFrame f) l [] { l with frame := f l.frame } := ⟨[], rfl, .nil⟩

theorem emits_instruction {opcode : Opcode} {operands : List String} (o : Op) (comment : String)
    (hop : opcode = o.opcode) (hargs : operands = o.operands exit) :
    Emits exit (instruction opcode operands comment) l [.op o] l :=
  ⟨_, rfl, .op ⟨hop, hargs⟩ .nil⟩

theorem emits_label (name comment : String) (ks : List Kind) :
    Emits exit (Emit.label name comment) l [.label name ks] l := ⟨_, rfl, .label .nil⟩

theorem Emits.ofFrame {f : Frame → Emit Unit} (h : Emits exit (f l.frame) l is l') :
    Emits exit (Emit.frame >>= f) l is l' := by
  obtain ⟨lines, hx, hw⟩ := h
  exact ⟨lines, Emit.bind_eq_ok.2 ⟨_, _, rfl, hx, rfl⟩, hw⟩

theorem Emits.ofLabel {f : String → Emit Unit} {suffix : String}
    (h : Emits exit (f (labelName l.labels suffix)) { l with labels := l.labels + 1 } is l') :
    Emits exit (freshLabel suffix >>= f) l is l' := by
  obtain ⟨lines, hx, hw⟩ := h
  exact ⟨lines, Emit.bind_eq_ok.2 ⟨_, _, rfl, hx, rfl⟩, hw⟩

end Emissions

/-! ## Templates -/

@[simp] theorem text_imm_zero : (Src.imm 0).text = "$0" := by
  simp [Src.text, immediateOperand, Decimal.intChars, Decimal.digits, Decimal.digitChar]

@[simp] theorem text_imm_one : (Src.imm 1).text = "$1" := by
  simp [Src.text, immediateOperand, Decimal.intChars, Decimal.digits, Decimal.digitChar]

namespace Frame

@[simp] theorem depth_pushTemps (f : Frame) (n : Nat) : (f.pushTemps n).depth = f.depth + n := by
  simp [pushTemps, depth, Nat.add_assoc]

@[simp] theorem slots_pushTemps (f : Frame) (n : Nat) : (f.pushTemps n).slots = f.slots := rfl

theorem pushTemps_pushTemps (f : Frame) (m n : Nat) : (f.pushTemps m).pushTemps n = f.pushTemps (m + n) := by
  simp [pushTemps, Nat.add_assoc]

@[simp] theorem pushTemps_zero (f : Frame) : f.pushTemps 0 = f := rfl

@[simp] theorem popTemps_pushTemps (f : Frame) (n : Nat) : (f.pushTemps n).popTemps n = f := by
  simp [pushTemps, popTemps]

end Frame

section Templates

variable {exit : String} {l : Layout}

/-- With another number of temporaries. -/
abbrev Layout.push (l : Layout) (n : Nat) : Layout := { l with frame := l.frame.pushTemps n }

abbrev Layout.pop (l : Layout) (n : Nat) : Layout := { l with frame := l.frame.popTemps n }

theorem emits_push (s : Src) (κ : Kind) {operand : String} (h : operand = s.text) (comment : String) :
    Emits exit (Emit.push operand comment) l [.op (.push s κ)] (l.push 1) :=
  (emits_instruction (.push s κ) comment rfl (by rw [h]; rfl)).bind (emits_modifyFrame _)

theorem emits_pop (r : Reg) (comment : String) :
    Emits exit (Emit.pop r.name comment) l [.op (.pop r)] (l.pop 1) :=
  (emits_instruction (.pop r) comment rfl rfl).bind (emits_modifyFrame _)

theorem emits_shrinkStack (n : Nat) (comment : String) :
    Emits exit (shrinkStack n comment) l (shrinkItems n) l := by
  cases n with
  | zero => exact emits_pure
  | succ n => exact emits_instruction (.shrink n) comment rfl rfl

theorem emits_growStack (comment : String) : Emits exit (growStack comment) l [.op .grow] l :=
  emits_instruction .grow comment rfl rfl

theorem emits_arithmetic (f : Arith) (op : BinaryOp) (κ : Kind) :
    Emits exit (arithmetic f.opcode op) l (arithmeticItems f κ) (((l.pop 1).pop 1).push 1) :=
  (emits_pop .r13 _).bind <| (emits_pop .r15 _).bind <|
    (emits_instruction (.combine f (.reg .r13) .r15) _ rfl rfl).bind (emits_push (.reg .r15) κ rfl _)

theorem emits_division (r : Reg) (op : BinaryOp) (κ : Kind) :
    Emits exit (division r.name op) l (divisionItems r κ) (((l.pop 1).pop 1).push 1) :=
  (emits_pop .r13 _).bind <| (emits_pop .rax _).bind <| (emits_instruction .extend _ rfl rfl).bind <|
    (emits_instruction (.divide .r13) _ rfl rfl).bind (emits_push (.reg r) κ rfl _)

theorem opcode_order (op : BinaryOp) : op.order.opcode = comparisonMove op := by
  cases op <;> rfl

theorem emits_comparison (op : BinaryOp) (κ : Kind) :
    Emits exit (comparison op) l (comparisonItems op.order κ) (((l.pop 1).pop 1).push 1) :=
  (emits_pop .rax _).bind <| (emits_pop .r15 _).bind <|
    (emits_instruction (.move (.imm 0) .r12) _ rfl (by simp [Op.operands]; rfl)).bind <|
    (emits_instruction (.move (.imm 1) .r13) _ rfl (by simp [Op.operands]; rfl)).bind <|
    (emits_instruction (.compare (.reg .rax) .r15) _ rfl rfl).bind <|
    (emits_instruction (.select op.order .r13 .r12) _ (opcode_order op).symm rfl).bind
      (emits_push (.reg .r12) κ rfl _)

theorem emits_power (ks : List Kind) (κ : Kind) :
    Emits exit power l (powerItems ks l.labels κ)
      { (((l.pop 1).pop 1).push 1) with labels := l.labels + 2 } :=
  .ofLabel <| .ofLabel <|
    (emits_pop .rcx _).bind <| (emits_pop .rbx _).bind <|
    (emits_instruction (.move (.imm 1) .rax) _ rfl (by simp [Op.operands]; rfl)).bind <|
    (emits_label _ _ ks).bind <|
    (emits_instruction (.compare (.imm 0) .rcx) _ rfl (by simp [Op.operands]; rfl)).bind <|
    (emits_instruction (.jump .atMost (labelName (l.labels + 1) "pow_end")) _ rfl rfl).bind <|
    (emits_instruction (.combine .mul (.reg .rbx) .rax) _ rfl rfl).bind <|
    (emits_instruction (.combine .sub (.imm 1) .rcx) _ rfl (by simp [Op.operands]; rfl)).bind <|
    (emits_instruction (.jump .always (labelName l.labels "pow_loop")) _ rfl rfl).bind <|
    (emits_label _ _ ks).bind (emits_push (.reg .rax) κ rfl _)

theorem emits_operator (op : BinaryOp) (ks : List Kind) (κ : Kind) :
    Emits exit (operator op) l (operatorItems ks l.labels κ op)
      { (((l.pop 1).pop 1).push 1) with labels := l.labels + operatorLabels op } := by
  cases op with
  | add => exact emits_arithmetic .add _ κ
  | sub => exact emits_arithmetic .sub _ κ
  | mul => exact emits_arithmetic .mul _ κ
  | div => exact emits_division .rax _ κ
  | mod => exact emits_division .rdx _ κ
  | pow => exact emits_power ks κ
  | _ => exact emits_comparison _ κ

theorem emits_negation (κ : Kind) :
    Emits exit (sign .neg) l (negationItems κ) ((l.pop 1).push 1) :=
  (emits_pop .rax _).bind <| (emits_instruction (.negate .rax) _ rfl rfl).bind
    (emits_push (.reg .rax) κ rfl _)

theorem emits_store (m : Nat) (n : Ident) :
    Emits exit (Emit.store (Src.slot m).text n) l (storeItems m) l :=
  (emits_instruction (.peek .rax) _ rfl rfl).bind (emits_instruction (.store .rax m) _ rfl rfl)

theorem Layout.pop_pop (l : Layout) (m n : Nat) : (l.pop m).pop n = l.pop (m + n) := by
  simp [Layout.pop, Frame.popTemps, Nat.sub_sub]

theorem emits_popArguments (rs : List Reg) (l : Layout) :
    Emits exit (popArguments (rs.map Reg.name)) l (popItems rs) (l.pop rs.length) := by
  induction rs generalizing l with
  | nil => exact emits_pure
  | cons r rs ih =>
    have hrest := ih (l.pop 1)
    rw [Layout.pop_pop, Nat.add_comm] at hrest
    exact (emits_pop r _).bind hrest

theorem emits_callItems (name : String) (arity p : Nat) (κ : Kind) (f : Frame) (n : Nat)
    (comment : String) :
    Emits exit (do
      popArguments (argumentRegisters.take arity)
      instruction .call [name] comment
      shrinkStack (stackArguments arity + p) "Drop stack arguments"
      modifyFrame (·.popTemps (stackArguments arity + p))
      Emit.push returnRegister "Push return value")
      ⟨f.pushTemps (p + arity), n⟩ (callItems name arity p κ) ⟨f.pushTemps 1, n⟩ := by
  have hregs : argumentRegisters.take arity = (Reg.arguments.take arity).map Reg.name := by
    rw [List.map_take]
    rfl
  have hframe : ((f.pushTemps (p + arity)).popTemps (Reg.arguments.take arity).length).popTemps
      (stackArguments arity + p) = f := by
    have hlen : (Reg.arguments.take arity).length = min arity 6 := by
      rw [List.length_take, Nat.min_def, Nat.min_def]
      rfl
    simp only [Frame.pushTemps, Frame.popTemps, hlen, stackArguments,
      show argumentRegisters.length = 6 from rfl]
    congr 1
    omega
  have hpush : Emits exit (Emit.push returnRegister "Push return value") ⟨f, n⟩
      [.op (.push (.reg .rax) κ)] ⟨f.pushTemps 1, n⟩ := emits_push (.reg .rax) κ rfl _
  rw [hregs]
  refine (emits_popArguments _ _).bind <| (emits_instruction (.call name) _ rfl rfl).bind <|
    (emits_shrinkStack _ _).bind ?_
  have hmod : Emits exit (modifyFrame (·.popTemps (stackArguments arity + p)))
      ⟨(f.pushTemps (p + arity)).popTemps (Reg.arguments.take arity).length, n⟩ [] ⟨f, n⟩ := by
    refine (emits_modifyFrame _).congr ?_
    exact congrArg (Layout.mk · n) hframe
  exact hmod.bind hpush

end Templates

/-! ## Expressions -/

/-- A type whose values have code, or that has none. -/
def Ty.IsValue (ty : Ty) : Prop := ty = .int ∨ ty = .void

/-- Functions that can be called have the number of parameters that the table says. -/
def Resolves (a : Analysis) (arityOf : String → Option Nat) : Prop :=
  ∀ n s, a.functions.get? n = some s → s.returns.IsValue → (∀ ty ∈ s.params, ty.IsValue) →
    arityOf n = some s.params.length

section Expressions

variable {exit : String} {a : Analysis} {arityOf : String → Option Nat} {l : Layout}

theorem typeOf_eq_ok {node : NodeId} {out : Emitted Ty} (h : typeOf a node l = .ok out) :
    a.types.get? node = some out.value ∧ out = ⟨out.value, [], l⟩ := by
  unfold typeOf at h
  cases hty : a.types.get? node with
  | some ty =>
    rw [hty] at h
    obtain rfl := Emit.pure_eq_ok.1 h
    exact ⟨rfl, rfl⟩
  | none =>
    rw [hty] at h
    exact absurd h Emit.fail_ne_ok

theorem expectValue_eq_ok {e : Expr} {out : Emitted Unit} (h : expectValue a e l = .ok out) :
    out = ⟨(), [], l⟩ ∧ ∃ ty, a.types.get? e.id = some ty ∧ ty.IsValue := by
  obtain ⟨⟨ty, ls, l'⟩, b, hty, hb, rfl⟩ := Emit.bind_eq_ok.1 h
  obtain ⟨hget, heq⟩ := typeOf_eq_ok hty
  cases heq
  have hvalue : b = ⟨(), [], l⟩ ∧ ty.IsValue := by
    match ty, hb with
    | .scalar .int, hb => exact ⟨Emit.pure_eq_ok.1 hb, .inl rfl⟩
    | .scalar .void, hb => exact ⟨Emit.pure_eq_ok.1 hb, .inr rfl⟩
  obtain ⟨rfl, hv⟩ := hvalue
  exact ⟨rfl, ty, hget, hv⟩

theorem slotNumber?_pos {d : NodeId} {slots : List NodeId} {n : Nat}
    (h : Frame.slotNumber? d slots = some n) : 0 < n := by
  induction slots with
  | nil => cases h
  | cons e es ih =>
    rw [Frame.slotNumber?] at h
    split at h
    · cases h
      exact Nat.succ_pos _
    · exact ih h

theorem slotOf_eq_ok (arityOf : String → Option Nat) {use : NodeId} {n : Ident} {out : Emitted String}
    (h : slotOf a use n l = .ok out) :
    ∃ m, (Meaning.mk a.symbols arityOf).slot? l.frame.slots use = some m ∧
      out = ⟨(Src.slot m).text, [], l⟩ := by
  unfold slotOf at h
  cases hd : a.symbols.get? use with
  | none =>
    rw [hd] at h
    exact absurd h Emit.fail_ne_ok
  | some d =>
    rw [hd] at h
    obtain ⟨⟨f, ls, l'⟩, b, hf, hb, rfl⟩ := Emit.bind_eq_ok.1 h
    cases hf
    dsimp only at hb
    cases hoffset : l.frame.offset? d with
    | none =>
      rw [hoffset] at hb
      exact absurd hb Emit.fail_ne_ok
    | some offset =>
      rw [hoffset] at hb
      obtain rfl := Emit.pure_eq_ok.1 hb
      obtain ⟨m, hm, rfl⟩ := Option.map_eq_some_iff.1 hoffset
      have hpos := slotNumber?_pos hm
      refine ⟨m - 1, ?_, ?_⟩
      · rw [Meaning.slot?, hd, Option.bind_some, hm]
        rfl
      · rw [Src.text, Src.slotOffset, Nat.sub_add_cancel hpos]
        rfl

theorem value_of_expr {e : Expr} {out : Emitted Unit} (h : Emit.expr a e l = .ok out) :
    ∃ ty, a.types.get? e.id = some ty ∧ ty.IsValue := by
  cases e with
  | float => cases h
  | string => cases h
  | index => cases h
  | _ =>
    rw [Emit.expr.eq_def] at h
    obtain ⟨x, b, hx, -, -⟩ := Emit.bind_eq_ok.1 h
    exact (expectValue_eq_ok hx).2

theorem value_of_arguments {es : List Expr} {out : Emitted Unit} (h : Emit.arguments a es l = .ok out) :
    ∀ e ∈ es, ∃ ty, a.types.get? e.id = some ty ∧ ty.IsValue := by
  induction es generalizing out with
  | nil => nofun
  | cons e es ih =>
    rw [Emit.arguments] at h
    obtain ⟨x, b, hes, he, -⟩ := Emit.bind_eq_ok.1 h
    intro e' he'
    rcases List.mem_cons.1 he' with rfl | he'
    · exact value_of_expr he
    · exact ih hes e' he'

/-- A call whose arguments have code passes as many of them as the function has. -/
theorem arity_of_called (harity : Resolves a arityOf) {site : Site} {n : Ident} {args : List Expr}
    (hcalled : (Expr.call site n args).Called a.functions a.types)
    (hsite : ∃ ty, a.types.get? site.id = some ty ∧ ty.IsValue)
    (hargs : ∀ e ∈ args, ∃ ty, a.types.get? e.id = some ty ∧ ty.IsValue) :
    arityOf n.name = some args.length := by
  rw [Expr.Called] at hcalled
  obtain ⟨⟨s, hs, hret, htypes⟩, -⟩ := hcalled
  have hlen := congrArg List.length htypes
  rw [List.length_map, List.length_map] at hlen
  rw [hlen]
  refine harity n.name s hs ?_ fun ty hty => ?_
  · obtain ⟨ty, hty, hv⟩ := hsite
    rw [hret] at hty
    cases hty
    exact hv
  · have hmem : some ty ∈ args.map (a.types.get? ·.id) := htypes ▸ List.mem_map_of_mem hty
    obtain ⟨e, he, heq⟩ := List.mem_map.1 hmem
    obtain ⟨ty', hty', hv⟩ := hargs e he
    rw [heq] at hty'
    cases hty'
    exact hv

theorem emit_of_expectValue {e : Expr} {x : Emit Unit} {out : Emitted Unit}
    (h : (expectValue a e >>= fun _ => x) l = .ok out) : x l = .ok out := by
  obtain ⟨a₀, b, h0, hb, rfl⟩ := Emit.bind_eq_ok.1 h
  obtain ⟨rfl, -⟩ := expectValue_eq_ok h0
  exact hb

theorem call_eq_ok {name : String} {arity p : Nat} {arguments : Emit Unit} {out : Emitted Unit} (κ : Kind)
    (hp : p = callPadding l.frame.depth arity) (h : Emit.call name arity arguments l = .ok out) :
    ∃ mid, arguments (l.push p) = .ok mid ∧ ∀ is, Written exit mid.lines is →
      mid.layout.frame = l.frame.pushTemps (p + arity) →
      out.layout = ⟨l.frame.pushTemps 1, mid.layout.labels⟩ ∧
        Written exit out.lines (growItems p ++ (is ++ callItems name arity p κ)) := by
  unfold Emit.call at h
  obtain ⟨f, b, hf, hb, rfl⟩ := Emit.bind_eq_ok.1 h
  cases hf
  dsimp only at hb
  rw [show (l.frame.depth + stackArguments arity) % 2 = p from hp.symm] at hb
  have hp2 : p = 0 ∨ p = 1 := by
    rw [hp, callPadding]
    omega
  rcases hp2 with rfl | rfl
  · rw [if_neg Nat.zero_ne_one] at hb
    obtain ⟨mid, c, hmid, hrest, rfl⟩ := Emit.bind_eq_ok.1 hb
    refine ⟨mid, hmid, fun is hw hframe => ?_⟩
    have hmid' : mid.layout = ⟨l.frame.pushTemps (0 + arity), mid.layout.labels⟩ := by rw [← hframe]
    rw [hmid'] at hrest
    obtain ⟨hl, hw'⟩ := (emits_callItems name arity 0 κ l.frame _ _).eq hrest
    exact ⟨hl, hw.append hw'⟩
  · rw [if_pos rfl] at hb
    obtain ⟨g, c, hg, hc, rfl⟩ := Emit.bind_eq_ok.1 hb
    obtain ⟨g', d, hg', hd, rfl⟩ := Emit.bind_eq_ok.1 hc
    cases hg
    cases hg'
    obtain ⟨mid, e, hmid, hrest, rfl⟩ := Emit.bind_eq_ok.1 hd
    refine ⟨mid, hmid, fun is hw hframe => ?_⟩
    have hmid' : mid.layout = ⟨l.frame.pushTemps (1 + arity), mid.layout.labels⟩ := by rw [← hframe]
    rw [hmid'] at hrest
    obtain ⟨hl, hw'⟩ := (emits_callItems name arity 1 κ l.frame _ _).eq hrest
    exact ⟨hl, .op ⟨rfl, rfl⟩ (hw.append hw')⟩

mutual

/-- **What is emitted for an expression are its items.** -/
theorem exprCode_of_emit (harity : Resolves a arityOf) {e : Expr} {l : Layout} {out : Emitted Unit}
    {ks : List Kind} (κ : Kind) (hlen : ks.length = l.frame.depth)
    (hc : e.Called a.functions a.types) (h : Emit.expr a e l = .ok out) :
    ∃ is, ExprCode ⟨a.symbols, arityOf⟩ l.frame.slots ks l.labels κ e is out.layout.labels ∧
      out.layout.frame = l.frame.pushTemps 1 ∧ Written exit out.lines is := by
  match e with
  | .float .. | .string .. | .index .. => cases h
  | .int s v =>
    have h := emit_of_expectValue h
    unfold intLiteral at h
    by_cases hfits : Operand.fitsImmediate v = true
    · rw [if_pos hfits] at h
      obtain ⟨hl, hw⟩ := (emits_push (.imm v) κ rfl _).eq h
      exact ⟨_, hl ▸ .narrow hfits, by rw [hl], hw⟩
    · rw [if_neg hfits] at h
      obtain ⟨hl, hw⟩ := ((emits_instruction (.move (.imm v) .rax) _ rfl rfl).bind
        (emits_push (.reg .rax) κ rfl _)).eq h
      exact ⟨_, hl ▸ .wide (by simpa using hfits), by rw [hl], hw⟩
  | .var s x =>
    have h := emit_of_expectValue h
    obtain ⟨b, b', hb, hb', rfl⟩ := Emit.bind_eq_ok.1 h
    obtain ⟨m, hm, rfl⟩ := slotOf_eq_ok arityOf hb
    obtain ⟨hl, hw⟩ := (emits_push (.slot m) κ rfl _).eq hb'
    exact ⟨_, hl ▸ .var hm, by rw [hl], hw⟩
  | .unary s op sp x =>
    have h := emit_of_expectValue h
    obtain ⟨b, b', hb, hb', rfl⟩ := Emit.bind_eq_ok.1 h
    have hx : x.Called a.functions a.types := hc
    clear h hc
    cases op with
    | plus =>
      obtain rfl := Emit.pure_eq_ok.1 hb'
      obtain ⟨is, hx, hf, hw⟩ := exprCode_of_emit harity κ hlen hx hb
      exact ⟨is, .plus hx, hf, by simpa using hw⟩
    | neg =>
      obtain ⟨is, hx, hf, hw⟩ := exprCode_of_emit harity .temp hlen hx hb
      obtain ⟨hl, hw'⟩ := (emits_negation κ).eq hb'
      refine ⟨is ++ negationItems κ, ?_, ?_, hw.append hw'⟩
      · rw [hl]
        exact .neg hx
      · rw [hl]
        show (b.layout.frame.popTemps 1).pushTemps 1 = _
        rw [hf, Frame.popTemps_pushTemps]
  | .binary s op sp x y =>
    rw [Emit.expr.eq_def] at h
    have hcode := emit_of_expectValue h
    have hc : x.Called a.functions a.types ∧ y.Called a.functions a.types := hc
    clear h
    by_cases hop : op = .assign
    · rw [if_pos hop] at hcode
      subst hop
      match x, hcode with
      | .var s' n, hcode =>
        obtain ⟨b, b', hb, hb', rfl⟩ := Emit.bind_eq_ok.1 hcode
        obtain ⟨m, hm, rfl⟩ := slotOf_eq_ok arityOf hb
        obtain ⟨d, d', hd, hd', rfl⟩ := Emit.bind_eq_ok.1 hb'
        obtain ⟨is, hy, hf, hw⟩ := exprCode_of_emit harity κ hlen hc.2 hd
        obtain ⟨hl, hw'⟩ := (emits_store m n).eq hd'
        refine ⟨is ++ storeItems m, ?_, ?_, hw.append hw'⟩
        · rw [hl]
          exact .assign hm hy
        · rw [hl, hf]
    · rw [if_neg hop] at hcode
      obtain ⟨b, b', hb, hb', rfl⟩ := Emit.bind_eq_ok.1 hcode
      obtain ⟨d, d', hd, hd', rfl⟩ := Emit.bind_eq_ok.1 hb'
      obtain ⟨is, hx, hf, hw⟩ := exprCode_of_emit harity .temp hlen hc.1 hb
      have hlen' : (Kind.temp :: ks).length = b.layout.frame.depth := by
        rw [hf, Frame.depth_pushTemps, List.length_cons, hlen]
      obtain ⟨js, hy, hf', hw'⟩ := exprCode_of_emit harity .temp hlen' hc.2 hd
      obtain ⟨hl, hw''⟩ := (emits_operator op ks κ).eq hd'
      refine ⟨is ++ (js ++ operatorItems ks d.layout.labels κ op), ?_, ?_, hw.append (hw'.append hw'')⟩
      · rw [hl]
        rw [hf] at hy
        exact .binary hop hx hy
      · rw [hl]
        show ((d.layout.frame.popTemps 1).popTemps 1).pushTemps 1 = _
        rw [hf', hf, Frame.popTemps_pushTemps, Frame.popTemps_pushTemps]
  | .call s f args =>
    have hsite := value_of_expr h
    have hcode := emit_of_expectValue h
    by_cases hin : a.functions.contains f.name = true
    · rw [if_pos hin] at hcode
      obtain ⟨mid, hmid, hrest⟩ := call_eq_ok κ rfl hcode
      have hall : Expr.CalledAll a.functions a.types args := hc.2
      have hlen' : (List.replicate (callPadding l.frame.depth args.length) Kind.pad ++ ks).length =
          (l.push (callPadding l.frame.depth args.length)).frame.depth := by
        rw [Frame.depth_pushTemps, List.length_append, List.length_replicate, hlen, Nat.add_comm]
      obtain ⟨is, hargs, hf, hw⟩ := argsCode_of_emit harity hlen' hall hmid
      obtain ⟨hl, hw'⟩ := hrest is hw (by rw [hf, Frame.pushTemps_pushTemps])
      refine ⟨_, ?_, by rw [hl], hw'⟩
      rw [hl]
      exact .call (arity_of_called harity hc hsite (value_of_arguments hmid)) (by rw [hlen]) hargs
    · rw [if_neg hin] at hcode
      exact absurd hcode Emit.fail_ne_ok

theorem argsCode_of_emit (harity : Resolves a arityOf) {es : List Expr} {l : Layout}
    {out : Emitted Unit} {ks : List Kind} (hlen : ks.length = l.frame.depth)
    (hc : Expr.CalledAll a.functions a.types es) (h : Emit.arguments a es l = .ok out) :
    ∃ is, ArgsCode ⟨a.symbols, arityOf⟩ l.frame.slots ks l.labels es is out.layout.labels ∧
      out.layout.frame = l.frame.pushTemps es.length ∧ Written exit out.lines is := by
  match es with
  | [] =>
    obtain rfl := Emit.pure_eq_ok.1 h
    exact ⟨[], .nil, rfl, .nil⟩
  | e :: es =>
    obtain ⟨b, b', hb, hb', rfl⟩ := Emit.bind_eq_ok.1 h
    obtain ⟨js, hes, hf, hw⟩ := argsCode_of_emit harity hlen hc.2 hb
    have hlen' : (List.replicate es.length Kind.temp ++ ks).length = b.layout.frame.depth := by
      rw [hf, Frame.depth_pushTemps, List.length_append, List.length_replicate, hlen, Nat.add_comm]
    obtain ⟨is, he, hf', hw'⟩ := exprCode_of_emit harity .temp hlen' hc.1 hb'
    refine ⟨js ++ is, .cons hes ?_, ?_, hw.append hw'⟩
    · rw [hf] at he
      exact he
    · rw [hf', hf, Frame.pushTemps_pushTemps]
      rfl

end

end Expressions

end MicroC
