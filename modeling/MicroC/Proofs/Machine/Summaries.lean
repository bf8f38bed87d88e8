import MicroC.Proofs.Machine.Access
import MicroC.Proofs.Machine.Straight

/-!
# What steps depend on

What the text of an instruction tells of the registers it reads, the registers it writes and whether it
writes to memory holds of the step that the machine takes for it, calls, jumps and returns among them.

* `Act.Keeps.jump`, `Act.Parallel.jump` and so on: what calls, jumps and returns leave alone, and what they
  do alike.
* `Stepped.Confined`: a step that reads some registers and writes others.
* `Instruction.confined`: every instruction is confined to what it is said to read and to write.
* **`step_as_told`**: a step is what the text of its instruction tells.
-/

namespace MicroC

open Convention Operand

/-! ## Calls, jumps and returns -/

/-- A view that does not see the return addresses. -/
def Cpu.IgnoresReturns {γ : Type} (view : Cpu → γ) : Prop :=
  ∀ (c : Cpu) (rs : List Int64), view { c with returns := rs } = view c

namespace Act

/-- What a jump does once its condition is known. -/
def jumpTo (opcode : Opcode) (targets : List Nat) (taken : Bool) : Act Next :=
  if taken then
    match targets.head? with
    | some address => pure (.goto address)
    | none => throw (.invalidOperand opcode "")
  else pure .advance

theorem jump_eq (opcode : Opcode) (targets : List Nat) :
    jump opcode targets = (if opcode = .jmp then pure true else condition opcode) >>= jumpTo opcode targets := by
  unfold jump jumpTo
  by_cases ho : opcode = .jmp
  · cases targets.head? <;> simp only [if_pos ho]
  · cases targets.head? <;> simp only [if_neg ho]

end Act

namespace Act.Keeps

variable {γ : Type} {view : Cpu → γ}

theorem enter (hr : Cpu.Ignores view .rsp) (hs : Cpu.IgnoresStack view) (hret : Cpu.IgnoresReturns view)
    (name : String) (address pc : Nat) : Keeps view (Act.enter name address pc) := by
  refine bind (checkAlignment name) fun _ => bind (push hr hs _) fun _ => bind (fun c a d h => ?_) fun _ => pure _
  cases h
  exact hret c _

theorem leave (hr : Cpu.Ignores view .rsp) (hret : Cpu.IgnoresReturns view) : Keeps view Act.leave := by
  refine bind (pop hr) fun address => bind (fun c a d h => ?_) fun expected => ?_
  · cases h
    exact hret c _
  · dsimp only
    split
    · exact fails _ _
    · split
      · exact bind (get _) fun _ => pure _
      · exact pure _

theorem jump (opcode : Opcode) (targets : List Nat) : Keeps view (Act.jump opcode targets) := by
  rw [jump_eq]
  refine bind ?_ fun taken => ?_
  · split
    · exact pure true
    · exact condition opcode
  · unfold jumpTo
    split
    · split
      · exact pure _
      · exact throw _
    · exact pure _

end Act.Keeps

namespace Act.Parallel

variable {S : Register → Prop}

theorem checkAlignment (hr : S .rsp) (function : String) : Parallel S S (Act.checkAlignment function) := by
  intro c d h a c' hx
  have hrsp : d.rsp = c.rsp := by rw [Cpu.rsp, Cpu.rsp, h.reg _ hr]
  unfold Act.checkAlignment at hx ⊢
  rw [hrsp]
  split at hx
  · next halign =>
    cases hx
    exact ⟨d, if_pos halign, h⟩
  · cases hx

theorem enter (hr : S .rsp) (name : String) (address pc : Nat) : Parallel S S (Act.enter name address pc) := by
  refine bind (checkAlignment hr name) fun _ => bind (push hr (fun _ => id) _) fun _ =>
    bind (fun c d h a c' hx => ?_) fun _ => pure (fun _ => id) _
  cases hx
  exact ⟨_, rfl, h.stack, h.flags, congrArg (_ :: ·) h.returns, h.reg⟩

theorem leave (hr : S .rsp) (hq : S .rax) : Parallel S S Act.leave := by
  refine bind (pop hr) fun address => bind (U := S) (fun c d h a c' hx => ?_) fun expected => ?_
  · cases hx
    rw [← h.returns]
    exact ⟨_, rfl, h.stack, h.flags, rfl, h.reg⟩
  · dsimp only
    split
    · exact fails _ _
    · split
      · exact bind (get hq) fun _ => pure (fun _ => id) _
      · exact pure (fun _ => id) _

theorem jump (opcode : Opcode) (targets : List Nat) : Parallel S S (Act.jump opcode targets) := by
  rw [jump_eq]
  refine bind (U := S) ?_ fun taken => ?_
  · split
    · exact pure (fun _ => id) true
    · exact condition opcode
  · unfold jumpTo
    split
    · split
      · exact pure (fun _ => id) _
      · exact throw _
    · exact pure (fun _ => id) _

theorem argument (hr : S .rsp) (ha : ∀ r : Register, r.name ∈ argumentRegisters → S r) (n : Nat) :
    Parallel S S (Act.argument n) := by
  unfold Act.argument
  split
  · next name hname =>
    split
    · next r hreg =>
      refine get (ha r ?_)
      rw [← Register.eq_name_of_ofName? hreg]
      exact List.mem_of_getElem? hname
    · exact pure (fun _ => id) _
  · exact bind (get hr) fun _ => load _

theorem argumentsFrom (hr : S .rsp) (ha : ∀ r : Register, r.name ∈ argumentRegisters → S r) (n k : Nat) :
    Parallel S S (Act.argumentsFrom n k) := by
  induction k generalizing n with
  | zero => exact pure (fun _ => id) _
  | succ k ih => exact bind (argument hr ha n) fun _ => bind (ih (n + 1)) fun _ => pure (fun _ => id) _

theorem prepare (hr : S .rsp) (ha : ∀ r : Register, r.name ∈ argumentRegisters → S r) (name : String)
    (arity : Option Nat) : Parallel S S (Act.prepare name arity) := by
  cases arity with
  | none => exact throw _
  | some n => exact bind (checkAlignment hr name) fun _ => argumentsFrom hr ha 0 n

end Act.Parallel

/-! ## Steps -/

/-- A step that leaves what is seen of the processor alone unless it fails. -/
def Stepped.Keeps {σ γ : Type} (view : Cpu → γ) (f : Cpu → Stepped σ) : Prop :=
  ∀ c n, (f c).next = .ok n → view (f c).cpu = view c

/-- A step that does the same to processors that agree on some registers, and makes them agree on others. -/
def Stepped.Parallel {σ : Type} (S T : Register → Prop) (f : Cpu → Stepped σ) : Prop :=
  ∀ c d, c.AgreeOn S d → ∀ n, (f c).next = .ok n →
    (f d).next = .ok n ∧ (f d).host = (f c).host ∧ (f c).cpu.AgreeOn T (f d).cpu

/-- A step that reads some registers and writes others. -/
structure Stepped.Confined {σ : Type} (S W : Register → Prop) (f : Cpu → Stepped σ) : Prop where
  keeps : ∀ r, ¬ W r → Stepped.Keeps (fun c => c.get r) f
  parallel : Stepped.Parallel S (fun r => S r ∨ W r) f

section

variable {σ γ : Type} {view : Cpu → γ} {S T W : Register → Prop} {act : Act Next}

theorem Act.step_ok {c : Cpu} {host : σ} {n : Next} (h : (act.step c host).next = .ok n) :
    ∃ d, act c = .ok n d := by
  unfold Act.step at h
  split at h
  · next hc =>
    cases h
    exact ⟨_, hc⟩
  · cases h

theorem Act.step_of_ok {c d : Cpu} {n : Next} (h : act c = .ok n d) (host : σ) :
    act.step c host = ⟨.ok n, d, host⟩ := by
  rw [Act.step, h]

theorem Act.Keeps.step (h : act.Keeps view) (host : σ) : Stepped.Keeps view fun c => act.step c host := by
  intro c n hn
  obtain ⟨d, hd⟩ := Act.step_ok hn
  dsimp only
  rw [Act.step_of_ok hd]
  exact h c n d hd

theorem Act.Parallel.step (h : act.Parallel S T) (host : σ) : Stepped.Parallel S T fun c => act.step c host := by
  intro c d hcd n hn
  obtain ⟨c', hc⟩ := Act.step_ok hn
  obtain ⟨d', hd, hagree⟩ := h c d hcd n c' hc
  dsimp only
  rw [Act.step_of_ok hc, Act.step_of_ok hd]
  exact ⟨rfl, rfl, hagree⟩

theorem Act.confined (hkeeps : ∀ r, ¬ W r → act.Keeps fun c => c.get r)
    (hparallel : act.Parallel S fun r => S r ∨ W r) (host : σ) :
    Stepped.Confined S W fun c => act.step c host :=
  ⟨fun r hr => (hkeeps r hr).step host, hparallel.step host⟩

theorem Act.Parallel.weaken {x : Act Next} (h : x.Parallel S S) (hW : ∀ r, W r → S r) :
    x.Parallel S fun r => S r ∨ W r := by
  intro c d hcd n c' hc
  obtain ⟨d', hd, hagree⟩ := h c d hcd n c' hc
  exact ⟨d', hd, hagree.mono fun r hr => hr.elim id (hW r)⟩

variable [Runtime σ]

/-- A call of the runtime writes its result only. -/
theorem callHost_keeps (hr : Cpu.Ignores view .rax) (name : String) (host : σ) :
    Stepped.Keeps view fun c => callHost name c host := by
  intro c n hn
  dsimp only at hn ⊢
  cases hc : Act.prepare name (Runtime.arity name host) c with
  | error e d =>
    rw [callHost, hc] at hn
    cases hn
  | ok args d =>
    have hkept := (Act.Keeps.prepare name _ : Act.Keeps view _) c args d hc
    rw [callHost_of_prepare hc] at hn ⊢
    generalize Runtime.call name args host = called at hn ⊢
    rcases called with ⟨e | w, host'⟩
    · cases hn
    · exact (hr d w).trans hkept

/-- A call of the runtime depends on its arguments and the stack pointer. -/
theorem callHost_parallel (hr : S .rsp) (ha : ∀ r : Register, r.name ∈ argumentRegisters → S r) (name : String)
    (host : σ) : Stepped.Parallel S (fun r => S r ∨ r = .rax) fun c => callHost name c host := by
  intro c d hcd n hn
  dsimp only at hn ⊢
  cases hc : Act.prepare name (Runtime.arity name host) c with
  | error e c' =>
    rw [callHost, hc] at hn
    cases hn
  | ok args c' =>
    obtain ⟨d', hd, hagree⟩ := Act.Parallel.prepare hr ha name _ c d hcd args c' hc
    rw [callHost_of_prepare hc] at hn ⊢
    rw [callHost_of_prepare hd]
    generalize Runtime.call name args host = called at hn ⊢
    rcases called with ⟨e | w, host'⟩
    · cases hn
    · exact ⟨hn, rfl, hagree.set (fun _ => id) w⟩

end

/-! ## Instructions -/

section

variable {σ : Type} [Runtime σ] {labels : Labels} {i : Instruction} {cell : Cell}

theorem decode_cases (h : decode labels i = .ok cell) :
    (i.opcode.isJump = true ∧ ∃ targets, cell = .jump i.opcode targets) ∨
      (i.opcode = .call ∧ cell = .call (i.operands.map (target labels))) ∨
      (i.opcode.isJump = false ∧ i.opcode ≠ .call ∧
        ∃ args, decodeArgs i.opcode i.operands = .ok args ∧ cell = .data i.opcode args) := by
  unfold decode at h
  split at h
  · next hjump =>
    cases hd : decodeJump labels i.operands with
    | error e =>
      rw [hd] at h
      cases h
    | ok targets =>
      rw [hd] at h
      cases h
      exact .inl ⟨hjump, targets, rfl⟩
  · next hjump =>
    split at h
    · next hcall =>
      cases h
      exact .inr (.inl ⟨hcall, rfl⟩)
    · next hcall =>
      cases hd : decodeArgs i.opcode i.operands with
      | error e =>
        rw [hd] at h
        cases h
      | ok args =>
        rw [hd] at h
        cases h
        exact .inr (.inr ⟨Bool.eq_false_iff.2 hjump, hcall, args, rfl, rfl⟩)

theorem map_some_of_decodeArgs {opcode : Opcode} {os : List String} {args : List Arg}
    (h : decodeArgs opcode os = .ok args) : args.map some = os.map arg? := by
  induction os generalizing args with
  | nil =>
    cases h
    rfl
  | cons o os ih =>
    rw [decodeArgs] at h
    cases ho : arg? o with
    | none =>
      rw [ho] at h
      cases h
    | some a =>
      rw [ho] at h
      cases hd : decodeArgs opcode os with
      | error e =>
        rw [hd] at h
        cases h
      | ok as =>
        rw [hd] at h
        cases h
        rw [List.map_cons, List.map_cons, ho, ih hd]

theorem Opcode.eq_retq_or {o : Opcode} (hjump : o.isJump = false) (hcall : o ≠ .call) :
    o = .retq ∨ o.transfersControl = false := by
  cases o
  case call => exact absurd rfl hcall
  case retq => exact .inl rfl
  all_goals first
    | exact .inr rfl
    | cases hjump

theorem Instruction.act_eq {args : List Arg} (h : decodeArgs i.opcode i.operands = .ok args) :
    i.act = Act.execute i.opcode args := by
  rw [Instruction.act, h]

/-- **Every instruction is confined** to the registers it is said to read and to write. -/
theorem Instruction.confined (hdec : decode labels i = .ok cell) (pc : Nat) (host : σ) :
    ∃ W : Register → Prop, (∀ r, W r → r.name ∈ i.writes) ∧
      Stepped.Confined (fun r => r.name ∈ i.reads) W fun c => step pc cell c host := by
  rcases decode_cases hdec with ⟨-, targets, rfl⟩ | ⟨hcall, rfl⟩ | ⟨hjump, hcall, args, hargs, rfl⟩
  · exact ⟨fun _ => False, fun _ => False.elim,
      Act.confined (fun _ _ => .jump _ _) (.weaken (.jump _ _) fun _ => False.elim) host⟩
  · have hreads : ∀ r : Register, r.name ∈ argumentRegisters ∨ r = .rsp → r.name ∈ i.reads := by
      intro r hr
      rw [Instruction.reads, hcall]
      exact List.mem_append.2 (hr.imp_right fun h => by rw [h]; exact List.mem_cons_self)
    have hwrites : ∀ r : Register, r = .rsp ∨ r = .rax → r.name ∈ i.writes := by
      intro r hr
      rw [Instruction.writes, hcall]
      rcases hr with rfl | rfl
      · exact List.mem_append_right _ List.mem_cons_self
      · exact List.mem_append_left _ (by decide)
    cases i.operands with
    | nil => exact ⟨fun _ => False, fun _ => False.elim,
        Act.confined (fun _ _ => .throw _) (.throw _) host⟩
    | cons o os =>
      rw [List.map_cons]
      cases target labels o with
      | label name address =>
        refine ⟨fun r => r = .rsp, fun r hr => hwrites r (.inl hr), Act.confined (fun r hr => ?_) ?_ host⟩
        · exact .enter (fun c w => c.get_set_of_ne hr w) (fun _ _ => rfl) (fun _ _ => rfl) _ _ _
        · exact .weaken (.enter (hreads _ (.inr rfl)) _ _ _) fun r hr => hreads r (.inr hr)
      | symbol name =>
        exact ⟨fun r => r = .rax, fun r hr => hwrites r (.inr hr),
          fun r hr => callHost_keeps (fun c w => c.get_set_of_ne hr w) name host,
          callHost_parallel (hreads _ (.inr rfl)) (fun r hr => hreads r (.inl hr)) name host⟩
  · rcases Opcode.eq_retq_or hjump hcall with hret | hdata
    · have hreads : ∀ r : Register, r = .rsp ∨ r = .rax → r.name ∈ i.reads := by
        intro r hr
        rw [Instruction.reads, hret]
        rcases hr with rfl | rfl
        · exact List.mem_cons_of_mem _ List.mem_cons_self
        · exact List.mem_cons_self
      rw [hret]
      refine ⟨fun r => r = .rsp, fun r hr => ?_, Act.confined (fun r hr => ?_) ?_ host⟩
      · rw [Instruction.writes, hret, hr]
        exact List.mem_cons_self
      · exact .leave (fun c w => c.get_set_of_ne hr w) fun _ _ => rfl
      · exact .weaken (.leave (hreads _ (.inl rfl)) (hreads _ (.inr rfl))) fun r hr => hreads r (.inl hr)
    · have hret : i.opcode ≠ .retq := fun h => by
        rw [h] at hdata
        cases hdata
      refine ⟨fun r => r.name ∈ i.writes, fun _ => id, ?_⟩
      simp only [step_of_data hret, ← Instruction.act_eq hargs]
      refine Act.confined (fun r hr => ?_) ?_ host
      · exact .bind (Instruction.keeps hdata hr) fun _ => .pure _
      · exact .bind (Instruction.parallel hdata fun _ => id) fun _ => .pure (fun _ => id) _

/-- An instruction on data that is not said to write to memory leaves the stack alone. A conditional move is
not said to, so its destination must be a register. -/
theorem Instruction.keeps_stack (hpush : i.opcode ≠ .pushq) (hm : i.writesMemory = false)
    (hcmov : i.opcode.isCmov = true → isRegister (i.operand 1) = true) : i.act.Keeps Cpu.stack := by
  unfold Instruction.act
  split
  · next args hargs =>
    have htells : ∀ {n : Nat} {a : Arg}, args[n]? = some a →
        isMemory (i.operand n) = a.isMemory ∧ isRegister (i.operand n) = a.isRegister := fun ha =>
      ⟨(tells_operand hargs ha).isMemory, (tells_operand hargs ha).isRegister⟩
    have hdest : ∀ a, Act.destination? i.opcode args = some a → a.isMemory = false := by
      intro a ha
      unfold Instruction.writesMemory at hm
      unfold Act.destination? at ha
      cases ho : i.opcode <;> rw [ho] at hm ha hcmov
      case popq | negq | movq | addq | subq | imulq => exact (htells ha).1.symm.trans hm
      case cmove | cmovne | cmovl | cmovle | cmovg | cmovge =>
        have hreg := (htells ha).2.symm.trans (hcmov rfl)
        cases a with
        | register r => rfl
        | _ => cases hreg
      all_goals cases ha
    refine .execute _ _ (fun a ha w => .write _ (fun _ _ _ _ => rfl) (fun hmem => ?_) w)
      (fun _ _ _ _ => rfl) (fun h => absurd h hpush) fun _ _ _ => rfl
    rw [hdest a ha] at hmem
    cases hmem
  · exact .throw _

/-- A step that is not said to write to memory leaves the stack alone. -/
theorem Instruction.step_keeps_stack (hdec : decode labels i = .ok cell) (hpush : i.opcode ≠ .pushq)
    (hcall : i.opcode ≠ .call) (hm : i.writesMemory = false)
    (hcmov : i.opcode.isCmov = true → isRegister (i.operand 1) = true) (pc : Nat) (host : σ) :
    Stepped.Keeps Cpu.stack fun c => step pc cell c host := by
  rcases decode_cases hdec with ⟨-, targets, rfl⟩ | ⟨hcall', -⟩ | ⟨hjump, -, args, hargs, rfl⟩
  · exact (Act.Keeps.jump _ _).step host
  · exact absurd hcall' hcall
  · by_cases hret : i.opcode = .retq
    · rw [hret]
      exact (Act.Keeps.leave (fun _ _ => rfl) fun _ _ => rfl).step host
    · simp only [step_of_data hret, ← Instruction.act_eq hargs]
      exact (Act.Keeps.bind (Instruction.keeps_stack hpush hm hcmov) fun _ => .pure _).step host

end

/-- **A step is what the text of its instruction tells.** Registers that the instruction is not said to write
keep their values, and so does the stack if it is not said to write to memory. A processor that agrees on the
registers it is said to read takes the same step: each register is left alone on both or ends with one value
on both. Operands denote what their texts tell. -/
theorem step_as_told {σ : Type} [Runtime σ] {labels : Labels} {i : Instruction} {cell : Cell}
    (hdec : decode labels i = .ok cell) :
    (∀ (pc : Nat) (c : Cpu) (host : σ) (n : Next), (step pc cell c host).next = .ok n →
      (∀ r : Register, r.name ∉ i.writes → (step pc cell c host).cpu.get r = c.get r) ∧
      (i.opcode ≠ .pushq → i.opcode ≠ .call → i.writesMemory = false →
        (i.opcode.isCmov = true → isRegister (i.operand 1) = true) →
          (step pc cell c host).cpu.stack = c.stack) ∧
      ∀ d, c.AgreeOn (fun r => r.name ∈ i.reads) d →
        (step pc cell d host).next = .ok n ∧ (step pc cell d host).host = (step pc cell c host).host ∧
        (step pc cell d host).cpu.stack = (step pc cell c host).cpu.stack ∧
        (step pc cell d host).cpu.flags = (step pc cell c host).cpu.flags ∧
        (step pc cell d host).cpu.returns = (step pc cell c host).cpu.returns ∧
        ∀ r, ((step pc cell c host).cpu.get r = c.get r ∧ (step pc cell d host).cpu.get r = d.get r) ∨
          (step pc cell d host).cpu.get r = (step pc cell c host).cpu.get r) ∧
    (i.opcode.isJump = false → i.opcode ≠ .call →
      ∃ args, cell = .data i.opcode args ∧ args.map some = i.operands.map arg?) ∧
    ∀ o a, arg? o = some a → Tells o a := by
  refine ⟨fun pc c host n hn => ?_, fun hjump hcall => ?_, fun o a => arg?_tells⟩
  · obtain ⟨W, hW, hconfined⟩ := Instruction.confined hdec pc host
    refine ⟨fun r hr => hconfined.keeps r (fun h => hr (hW r h)) c n hn,
      fun hpush hcall hm hcmov => Instruction.step_keeps_stack hdec hpush hcall hm hcmov pc host c n hn,
      fun d hd => ?_⟩
    obtain ⟨hnext, hhost, hagree⟩ := hconfined.parallel c d hd n hn
    refine ⟨hnext, hhost, hagree.stack, hagree.flags, hagree.returns, fun r => ?_⟩
    by_cases hr : W r
    · exact .inr (hagree.reg r (.inr hr))
    · exact .inl ⟨hconfined.keeps r hr c n hn, hconfined.keeps r hr d n hnext⟩
  · rcases decode_cases hdec with ⟨hj, -⟩ | ⟨hc, -⟩ | ⟨-, -, args, hargs, rfl⟩
    · rw [hj] at hjump
      cases hjump
    · exact absurd hc hcall
    · exact ⟨args, rfl, map_some_of_decodeArgs hargs⟩

/-- Adds five to a register. -/
def addFive : Instruction := { opcode := .addq, operands := ["$5", "%rax"] }

/-- Adding five does not depend on `%rcx`, and leaves it and the stack alone. -/
theorem step_as_told_addFive :
    let c := Cpu.start (.replicate stackWords 0)
    let cell : Cell := .data .addq [.immediate 5, .register .rax]
    let host : Script := {}
    decode .empty addFive = .ok cell ∧ (step 0 cell c host).next = .ok .advance ∧
      (step 0 cell c host).cpu.stack = c.stack ∧
      (step 0 cell (c.set .rcx 7) host).next = .ok .advance ∧
      (step 0 cell (c.set .rcx 7) host).cpu.get .rcx = 7 ∧
      (step 0 cell (c.set .rcx 7) host).cpu.get .rax = (step 0 cell c host).cpu.get .rax := by
  generalize (Vector.replicate stackWords 0 : Stack) = s
  intro c cell host
  have hdec : decode .empty addFive = .ok cell := by decide +kernel
  have hnext : (step 0 cell c host).next = .ok .advance := rfl
  have hagree : c.AgreeOn (fun r => r.name ∈ addFive.reads) (c.set .rcx 7) := by
    refine ⟨rfl, rfl, rfl, fun r hr => Cpu.get_set_of_ne _ ?_ _⟩
    rintro rfl
    exact absurd hr (by decide +kernel)
  obtain ⟨hsteps, -, -⟩ := step_as_told (σ := Script) hdec
  obtain ⟨-, hstack, halike⟩ := hsteps 0 c host .advance hnext
  obtain ⟨hnext', -, -, -, -, hreg⟩ := halike _ hagree
  obtain ⟨hkeeps, -, -⟩ := hsteps 0 (c.set .rcx 7) host .advance hnext'
  refine ⟨hdec, hnext, hstack (by decide) (by decide) (by decide +kernel) nofun, hnext', ?_, ?_⟩
  · rw [hkeeps .rcx (by decide +kernel), Cpu.get_set_self]
  · rcases hreg .rax with ⟨hc, hd⟩ | h
    · rw [hc, hd, Cpu.get_set_of_ne _ (by decide)]
    · exact h

end MicroC
