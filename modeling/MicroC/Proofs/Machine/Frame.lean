import MicroC.Proofs.Machine.Stack

/-!
# What actions leave alone

Facts about all actions of the processor that are built from a few: each is proved once for every way to
look at a processor.

* `Act.Keeps`: an action leaves what is seen of the processor alone.
* `Cpu.AgreeOn`: two processors that differ in some registers only.
* `Act.Parallel`: an action does the same to two such processors.
* **`Act.Keeps.execute`**, **`Act.Parallel.execute`**: instructions on data, by their opcode.
-/

namespace MicroC

namespace Arg

/-- The registers of an operand. -/
def registers : Arg → List Register
  | .immediate _ => []
  | .register r => [r]
  | .memory _ b => [b]

def isRegister : Arg → Bool
  | .register _ => true
  | _ => false

def isMemory : Arg → Bool
  | .memory .. => true
  | _ => false

def immediate? : Arg → Option Int64
  | .immediate w => some w
  | _ => none

end Arg

namespace Act

variable {β : Type}

theorem operand_bind (opcode : Opcode) (args : List Arg) (n : Nat) (f : Arg → Act β) :
    (operand opcode args n >>= f) =
      match args[n]? with
      | some a => f a
      | none => throw (.invalidOperand opcode "") := by
  unfold operand
  cases args[n]? <;> rfl

/-- The operand that an instruction on data writes to. -/
def destination? (opcode : Opcode) (args : List Arg) : Option Arg :=
  match opcode with
  | .movq | .addq | .subq | .imulq
  | .cmove | .cmovne | .cmovl | .cmovle | .cmovg | .cmovge => args[1]?
  | .popq | .negq => args[0]?
  | _ => none

/-- The registers that an instruction on data writes to whatever its operands are. -/
def fixedWrites : Opcode → List Register
  | .pushq | .popq => [.rsp]
  | .idivq => [.rax, .rdx]
  | .cqto => [.rdx]
  | _ => []

/-- The registers that an operand of an instruction is read from. -/
def operandReads (args : List Arg) (n : Nat) : List Register :=
  match args[n]? with
  | some a => a.registers
  | none => []

/-- The registers that give the address of an operand. -/
def addressReads (args : List Arg) (n : Nat) : List Register :=
  match args[n]? with
  | some a => if a.isMemory then a.registers else []
  | none => []

/-- The registers that an instruction on data reads. -/
def dataReads (opcode : Opcode) (args : List Arg) : List Register :=
  match opcode with
  | .pushq => operandReads args 0 ++ [.rsp]
  | .popq => .rsp :: addressReads args 0
  | .movq => operandReads args 0 ++ addressReads args 1
  | .addq | .subq | .imulq | .cmpq
  | .cmove | .cmovne | .cmovl | .cmovle | .cmovg | .cmovge => operandReads args 0 ++ operandReads args 1
  | .negq => operandReads args 0
  | .idivq => operandReads args 0 ++ [.rax, .rdx]
  | .cqto => [.rax]
  | .jmp | .je | .jne | .jle | .call | .retq | .nop => []

theorem mem_operandReads {args : List Arg} {n : Nat} {a : Arg} (ha : args[n]? = some a) {r : Register}
    (hr : r ∈ a.registers) : r ∈ operandReads args n := by
  rw [operandReads, ha]
  exact hr

theorem mem_addressReads {args : List Arg} {n : Nat} {a : Arg} (ha : args[n]? = some a)
    (hm : a.isMemory = true) {r : Register} (hr : r ∈ a.registers) : r ∈ addressReads args n := by
  rw [addressReads, ha]
  dsimp only
  rw [if_pos hm]
  exact hr

theorem addressReads_subset {args : List Arg} {n : Nat} {r : Register} (h : r ∈ addressReads args n) :
    r ∈ operandReads args n := by
  unfold addressReads at h
  split at h
  · next a ha =>
    split at h
    · exact mem_operandReads ha h
    · cases h
  · cases h

end Act

/-! ## What is left alone -/

/-- An action that leaves what is seen of the processor alone. -/
def Act.Keeps {α γ : Type} (view : Cpu → γ) (x : Act α) : Prop := ∀ c a d, x c = .ok a d → view d = view c

/-- A view that does not see a register. -/
def Cpu.Ignores {γ : Type} (view : Cpu → γ) (r : Register) : Prop := ∀ c w, view (c.set r w) = view c

/-- A view that does not see the stack. -/
def Cpu.IgnoresStack {γ : Type} (view : Cpu → γ) : Prop :=
  ∀ (c : Cpu) (s : Stack), view { c with stack := s } = view c

namespace Act.Keeps

variable {α β γ : Type} {view : Cpu → γ}

theorem pure (a : α) : Keeps view (Pure.pure a : Act α) := by
  intro c b d h
  cases h
  rfl

theorem throw (e : MachineError) : Keeps view (throw e : Act α) := nofun

theorem fails (e : MachineError) (f : α → Act β) : Keeps view ((MonadExcept.throw e : Act α) >>= f) := nofun

theorem bind {x : Act α} {f : α → Act β} (hx : Keeps view x) (hf : ∀ a, Keeps view (f a)) :
    Keeps view (x >>= f) := by
  intro c b d h
  cases hr : x c with
  | ok a c' =>
    rw [bind_of_ok hr] at h
    rw [hf a c' b d h, hx c a c' hr]
  | error e c' =>
    rw [bind_of_error hr] at h
    cases h

theorem get (r : Register) : Keeps view (Act.get r) := by
  intro c b d h
  cases h
  rfl

theorem set {r : Register} (hr : Cpu.Ignores view r) (w : Int64) : Keeps view (Act.set r w) := by
  intro c b d h
  cases h
  exact hr c w

theorem load (a : Nat) : Keeps view (Act.load a) := by
  intro c b d h
  unfold Act.load at h
  split at h
  · cases h
    rfl
  · cases h

theorem store (hs : Cpu.IgnoresStack view) (a : Nat) (w : Int64) : Keeps view (Act.store a w) := by
  intro c b d h
  unfold Act.store at h
  split at h
  · cases h
    exact hs c _
  · cases h

theorem condition (opcode : Opcode) : Keeps view (Act.condition opcode) := by
  intro c b d h
  unfold Act.condition at h
  split at h
  · cases h
    rfl
  · cases h

theorem push (hr : Cpu.Ignores view .rsp) (hs : Cpu.IgnoresStack view) (w : Int64) :
    Keeps view (Act.push w) := by
  refine bind (get _) fun v => ?_
  dsimp only
  split
  · exact fails _ _
  · exact bind (store hs _ _) fun _ => set hr _

theorem pop (hr : Cpu.Ignores view .rsp) : Keeps view Act.pop :=
  bind (get _) fun _ => bind (load _) fun _ => bind (set hr _) fun _ => pure _

theorem address (d : Int64) (b : Register) : Keeps view (Act.address d b) :=
  bind (get _) fun _ => pure _

theorem read (a : Arg) : Keeps view (Act.read a) := by
  cases a with
  | immediate w => exact pure _
  | register r => exact get _
  | memory d b => exact bind (address d b) fun _ => load _

theorem write (opcode : Opcode) {a : Arg} (hr : ∀ r, a = .register r → Cpu.Ignores view r)
    (hs : a.isMemory = true → Cpu.IgnoresStack view) (w : Int64) : Keeps view (Act.write opcode a w) := by
  cases a with
  | immediate w => exact throw _
  | register r => exact set (hr r rfl) _
  | memory d b => exact bind (address d b) fun _ => store (hs rfl) _ _

theorem operand {opcode : Opcode} {args : List Arg} {n : Nat} {f : Arg → Act β}
    (hf : ∀ a, args[n]? = some a → Keeps view (f a)) : Keeps view (Act.operand opcode args n >>= f) := by
  rw [operand_bind]
  split
  · next a ha => exact hf a ha
  · exact throw _

theorem writeOperand {opcode : Opcode} {args : List Arg} {n : Nat}
    (hd : ∀ a, args[n]? = some a → ∀ w, Keeps view (Act.write opcode a w)) (w : Int64) :
    Keeps view (Act.operand opcode args n >>= fun a => Act.write opcode a w) :=
  operand fun a ha => hd a ha w

theorem readOperand {opcode : Opcode} {args : List Arg} {n : Nat} {f : Int64 → Act β}
    (hf : ∀ w, Keeps view (f w)) : Keeps view (Act.operand opcode args n >>= fun a => Act.read a >>= f) :=
  operand fun a _ => bind (read a) hf

theorem combine {opcode : Opcode} {args : List Arg}
    (hd : ∀ a, args[1]? = some a → ∀ w, Keeps view (Act.write opcode a w)) (f : Int64 → Int64 → Int64) :
    Keeps view (Act.combine opcode args f) :=
  readOperand fun _ => operand fun a ha => bind (read a) fun _ => hd a ha _

theorem divide (hq : Cpu.Ignores view .rax) (hm : Cpu.Ignores view .rdx) (w : Int64) :
    Keeps view (Act.divide w) := by
  unfold Act.divide
  split
  · exact fails _ _
  · refine bind (get _) fun high => bind (get _) fun low => ?_
    split
    · exact fails _ _
    · dsimp only
      split
      · exact throw _
      · exact bind (set hq _) fun _ => set hm _

/-- **What an instruction on data leaves alone.** -/
theorem execute (opcode : Opcode) (args : List Arg)
    (hd : ∀ a, destination? opcode args = some a → ∀ w, Keeps view (Act.write opcode a w))
    (hr : ∀ r ∈ fixedWrites opcode, Cpu.Ignores view r) (hs : opcode = .pushq → Cpu.IgnoresStack view)
    (hf : opcode = .cmpq → ∀ (c : Cpu) f, view { c with flags := f } = view c) :
    Keeps view (Act.execute opcode args) := by
  cases opcode with
  | pushq => exact readOperand fun _ => push (hr _ List.mem_cons_self) (hs rfl) _
  | popq => exact bind (pop (hr _ List.mem_cons_self)) (writeOperand hd)
  | movq => exact readOperand (writeOperand hd)
  | addq | subq | imulq => exact combine hd _
  | negq => exact operand fun a ha => bind (read a) fun _ => hd a ha _
  | cqto => exact bind (get _) fun _ => set (hr _ List.mem_cons_self) _
  | idivq =>
    exact readOperand (divide (hr _ List.mem_cons_self) (hr _ (List.mem_cons_of_mem _ List.mem_cons_self)))
  | cmpq =>
    refine readOperand fun _ => readOperand fun _ => ?_
    intro c b d h
    cases h
    exact hf rfl c _
  | cmove | cmovne | cmovl | cmovle | cmovg | cmovge =>
    refine bind (condition _) fun taken => ?_
    cases taken with
    | true => exact readOperand (writeOperand hd)
    | false => exact pure _
  | jmp | je | jne | jle | call | retq | nop => exact pure _

/-! Calls of the runtime only look at the processor. -/

theorem checkAlignment (function : String) : Keeps view (Act.checkAlignment function) := by
  intro c b d h
  unfold Act.checkAlignment at h
  split at h
  · cases h
    rfl
  · cases h

theorem argument (n : Nat) : Keeps view (Act.argument n) := by
  unfold Act.argument
  split
  · split
    · exact get _
    · exact pure _
  · exact bind (get _) fun _ => load _

theorem argumentsFrom (n k : Nat) : Keeps view (Act.argumentsFrom n k) := by
  induction k generalizing n with
  | zero => exact pure _
  | succ k ih => exact bind (argument n) fun _ => bind (ih (n + 1)) fun _ => pure _

theorem prepare (name : String) (arity : Option Nat) : Keeps view (Act.prepare name arity) := by
  cases arity with
  | none => exact throw _
  | some n => exact bind (checkAlignment name) fun _ => argumentsFrom 0 n

end Act.Keeps

/-- An action that leaves the return addresses alone. -/
def Act.KeepsReturns {α : Type} (x : Act α) : Prop := ∀ c a d, x c = .ok a d → d.returns = c.returns

namespace Act.KeepsReturns

theorem push (w : Int64) : KeepsReturns (Act.push w) :=
  Keeps.push (fun _ _ => rfl) (fun _ _ => rfl) w

/-- **Instructions on data leave the return addresses alone.** -/
theorem execute (opcode : Opcode) (args : List Arg) : KeepsReturns (Act.execute opcode args) :=
  Keeps.execute opcode args
    (fun _ _ => Keeps.write opcode (fun _ _ _ _ => rfl) fun _ _ _ => rfl) (fun _ _ _ _ => rfl)
    (fun _ _ _ => rfl) fun _ _ _ => rfl

end Act.KeepsReturns

/-! ## What is done alike -/

/-- Two processors that differ in some registers only. -/
structure Cpu.AgreeOn (S : Register → Prop) (c d : Cpu) : Prop where
  stack : d.stack = c.stack
  flags : d.flags = c.flags
  returns : d.returns = c.returns
  reg : ∀ r, S r → d.get r = c.get r

namespace Cpu.AgreeOn

variable {S T : Register → Prop} {c d e : Cpu}

theorem refl (S : Register → Prop) (c : Cpu) : AgreeOn S c c := ⟨rfl, rfl, rfl, fun _ _ => rfl⟩

theorem trans (h : AgreeOn S c d) (h' : AgreeOn S d e) : AgreeOn S c e :=
  ⟨h'.stack.trans h.stack, h'.flags.trans h.flags, h'.returns.trans h.returns,
    fun r hr => (h'.reg r hr).trans (h.reg r hr)⟩

theorem mono (h : AgreeOn S c d) (hT : ∀ r, T r → S r) : AgreeOn T c d :=
  ⟨h.stack, h.flags, h.returns, fun r hr => h.reg r (hT r hr)⟩

theorem set (h : AgreeOn S c d) {r : Register} (hT : ∀ q, T q → S q ∨ q = r) (w : Int64) :
    AgreeOn T (c.set r w) (d.set r w) := by
  refine ⟨h.stack, h.flags, h.returns, fun q hq => ?_⟩
  by_cases hqr : q = r
  · rw [hqr, get_set_self, get_set_self]
  · rw [get_set_of_ne _ hqr, get_set_of_ne _ hqr]
    rcases hT q hq with hs | hr
    · exact h.reg q hs
    · exact absurd hr hqr

end Cpu.AgreeOn

/-- An action that does the same to processors that agree on some registers, and makes them agree on
others. -/
def Act.Parallel {α : Type} (S T : Register → Prop) (x : Act α) : Prop :=
  ∀ c d, c.AgreeOn S d → ∀ a c', x c = .ok a c' → ∃ d', x d = .ok a d' ∧ c'.AgreeOn T d'

namespace Act.Parallel

variable {α β : Type} {S T U : Register → Prop}

theorem pure (hT : ∀ r, T r → S r) (a : α) : Parallel S T (Pure.pure a : Act α) := by
  intro c d h b c' hx
  cases hx
  exact ⟨d, rfl, h.mono hT⟩

theorem throw (e : MachineError) : Parallel S T (throw e : Act α) := nofun

theorem fails (e : MachineError) (f : α → Act β) : Parallel S T ((MonadExcept.throw e : Act α) >>= f) := nofun

theorem bind {x : Act α} {f : α → Act β} (hx : Parallel S U x) (hf : ∀ a, Parallel U T (f a)) :
    Parallel S T (x >>= f) := by
  intro c d h b c' hc
  cases hr : x c with
  | ok a c₁ =>
    rw [bind_of_ok hr] at hc
    obtain ⟨d₁, hd₁, h₁⟩ := hx c d h a c₁ hr
    obtain ⟨d', hd', h'⟩ := hf a c₁ d₁ h₁ b c' hc
    exact ⟨d', (bind_of_ok hd₁ f).trans hd', h'⟩
  | error e c₁ =>
    rw [bind_of_error hr] at hc
    cases hc

theorem get {r : Register} (hr : S r) : Parallel S S (Act.get r) := by
  intro c d h a c' hx
  cases hx
  refine ⟨d, ?_, h⟩
  rw [Act.get, h.reg r hr]

theorem set {r : Register} (hT : ∀ q, T q → S q ∨ q = r) (w : Int64) : Parallel S T (Act.set r w) := by
  intro c d h a c' hx
  cases hx
  exact ⟨_, rfl, h.set hT w⟩

theorem load (a : Nat) : Parallel S S (Act.load a) := by
  intro c d h w c' hx
  cases hs : slot? a with
  | none =>
    rw [load_of_none hs] at hx
    cases hx
  | some i =>
    rw [load_of_slot hs] at hx ⊢
    cases hx
    exact ⟨d, by rw [h.stack], h⟩

theorem store (a : Nat) (w : Int64) (hT : ∀ r, T r → S r) : Parallel S T (Act.store a w) := by
  intro c d h b c' hx
  cases hs : slot? a with
  | none =>
    rw [store_of_none hs] at hx
    cases hx
  | some i =>
    rw [store_of_slot hs] at hx ⊢
    cases hx
    exact ⟨_, rfl, by dsimp only; rw [h.stack], h.flags, h.returns, fun r hr => h.reg r (hT r hr)⟩

theorem condition (opcode : Opcode) : Parallel S S (Act.condition opcode) := by
  intro c d h b c' hx
  unfold Act.condition at hx ⊢
  rw [h.flags]
  split at hx
  · cases hx
    exact ⟨d, rfl, h⟩
  · cases hx

theorem push (hr : S .rsp) (hT : ∀ r, T r → S r) (w : Int64) : Parallel S T (Act.push w) := by
  refine bind (get hr) fun v => ?_
  dsimp only
  split
  · exact fails _ _
  · exact bind (store _ _ fun _ => id) fun _ => set (fun q hq => .inl (hT q hq)) _

theorem pop (hr : S .rsp) : Parallel S S Act.pop :=
  bind (get hr) fun _ => bind (load _) fun _ => bind (set (fun _ => .inl) _) fun _ => pure (fun _ => id) _

theorem address (d : Int64) {b : Register} (hb : S b) : Parallel S S (Act.address d b) :=
  bind (get hb) fun _ => pure (fun _ => id) _

theorem read {a : Arg} (ha : ∀ r ∈ a.registers, S r) : Parallel S S (Act.read a) := by
  cases a with
  | immediate w => exact pure (fun _ => id) _
  | register r => exact get (ha r List.mem_cons_self)
  | memory d b => exact bind (address d (ha b List.mem_cons_self)) fun _ => load _

theorem write (opcode : Opcode) {a : Arg} (ha : a.isMemory = true → ∀ r ∈ a.registers, S r)
    (hT : ∀ r, T r → S r ∨ a = .register r) (w : Int64) : Parallel S T (Act.write opcode a w) := by
  cases a with
  | immediate v => exact throw _
  | register r => exact set (fun q hq => (hT q hq).imp_right fun h => by cases h; rfl) w
  | memory d b =>
    exact bind (address d (ha rfl b List.mem_cons_self)) fun _ =>
      store _ _ fun r hr => (hT r hr).resolve_right nofun

theorem operand {opcode : Opcode} {args : List Arg} {n : Nat} {f : Arg → Act β}
    (hf : ∀ a, args[n]? = some a → Parallel S T (f a)) :
    Parallel S T (Act.operand opcode args n >>= f) := by
  rw [operand_bind]
  split
  · next a ha => exact hf a ha
  · exact throw _

theorem readOperand {opcode : Opcode} {args : List Arg} {n : Nat} {f : Int64 → Act β}
    (hn : ∀ r ∈ operandReads args n, S r) (hf : ∀ w, Parallel S T (f w)) :
    Parallel S T (Act.operand opcode args n >>= fun a => Act.read a >>= f) :=
  operand fun _ ha => bind (read fun r hr => hn r (mem_operandReads ha hr)) hf

theorem writeOperand {opcode : Opcode} {args : List Arg} {n : Nat} (hn : ∀ r ∈ addressReads args n, S r)
    (hT : ∀ r, T r → S r ∨ args[n]? = some (.register r)) (w : Int64) :
    Parallel S T (Act.operand opcode args n >>= fun a => Act.write opcode a w) := by
  refine operand fun a ha => write opcode (fun hm r hr => hn r (mem_addressReads ha hm hr)) ?_ w
  intro r hr
  refine (hT r hr).imp_right fun h => ?_
  rw [ha] at h
  exact Option.some.inj h

theorem combine {opcode : Opcode} {args : List Arg} (h0 : ∀ r ∈ operandReads args 0, S r)
    (h1 : ∀ r ∈ operandReads args 1, S r) (hT : ∀ r, T r → S r ∨ args[1]? = some (.register r))
    (f : Int64 → Int64 → Int64) : Parallel S T (Act.combine opcode args f) := by
  refine readOperand h0 fun _ => operand fun a ha => ?_
  have hread : ∀ r ∈ a.registers, S r := fun r hr => h1 r (mem_operandReads ha hr)
  refine bind (read hread) fun _ => write opcode (fun _ => hread) (fun r hr => ?_) _
  refine (hT r hr).imp_right fun h => ?_
  rw [ha] at h
  exact Option.some.inj h

theorem divide (hq : S .rax) (hm : S .rdx) (hT : ∀ r, T r → S r) (w : Int64) :
    Parallel S T (Act.divide w) := by
  unfold Act.divide
  split
  · exact fails _ _
  · refine bind (get hm) fun high => bind (get hq) fun low => ?_
    split
    · exact fails _ _
    · dsimp only
      split
      · exact throw _
      · exact bind (set (fun _ => .inl) _) fun _ => set (fun r hr => .inl (hT r hr)) _

/-- **What an instruction on data does depends on the registers it reads.** Afterwards the registers it
writes are agreed on as well. -/
theorem execute (opcode : Opcode) (args : List Arg) (hS : ∀ r ∈ dataReads opcode args, S r)
    (hT : ∀ r, T r → S r ∨ r ∈ fixedWrites opcode ∨ destination? opcode args = some (.register r)) :
    Parallel S T (Act.execute opcode args) := by
  -- Registers that are written whatever the operands are have been read, but for the sign of `cqto`.
  have hfixed : (∀ r ∈ fixedWrites opcode, S r) → destination? opcode args = none → ∀ r, T r → S r := by
    intro hf hn r hr
    rcases hT r hr with hs | hw | hd
    · exact hs
    · exact hf r hw
    · rw [hn] at hd
      cases hd
  have hdest : (∀ r ∈ fixedWrites opcode, S r) → ∀ r, T r → S r ∨ destination? opcode args = some (.register r) :=
    fun hf r hr => (hT r hr).elim .inl fun h => h.imp_left (hf r)
  cases opcode with
  | pushq =>
    obtain ⟨h0, hsp⟩ := List.forall_mem_append.1 hS
    exact readOperand h0 fun _ => push (hsp _ List.mem_cons_self) (hfixed hsp rfl) _
  | popq =>
    obtain ⟨hsp, h0⟩ := List.forall_mem_cons.1 hS
    exact bind (pop hsp) (writeOperand h0 (hdest fun r hr => List.mem_singleton.1 hr ▸ hsp))
  | movq =>
    obtain ⟨h0, h1⟩ := List.forall_mem_append.1 hS
    exact readOperand h0 fun _ => writeOperand h1 (hdest nofun) _
  | addq | subq | imulq =>
    obtain ⟨h0, h1⟩ := List.forall_mem_append.1 hS
    exact combine h0 h1 (hdest nofun) _
  | negq =>
    refine operand fun a ha => ?_
    have hread : ∀ r ∈ a.registers, S r := fun r hr => hS r (mem_operandReads ha hr)
    refine bind (read hread) fun _ => write _ (fun _ => hread) (fun r hr => ?_) _
    refine (hdest nofun r hr).imp_right fun h => ?_
    rw [destination?, ha] at h
    exact Option.some.inj h
  | cqto =>
    refine bind (get (hS _ List.mem_cons_self)) fun _ => set (fun r hr => ?_) _
    rcases hT r hr with hs | hw | hd
    · exact .inl hs
    · exact .inr (List.mem_singleton.1 hw)
    · cases hd
  | idivq =>
    obtain ⟨h0, hfix⟩ := List.forall_mem_append.1 hS
    exact readOperand h0 (divide (hfix _ List.mem_cons_self)
      (hfix _ (List.mem_cons_of_mem _ List.mem_cons_self)) (hfixed hfix rfl))
  | cmpq =>
    obtain ⟨h0, h1⟩ := List.forall_mem_append.1 hS
    refine readOperand h0 fun _ => readOperand h1 fun _ => ?_
    intro c d h b c' hx
    cases hx
    exact ⟨_, rfl, h.stack, rfl, h.returns, fun r hr => h.reg r (hfixed nofun rfl r hr)⟩
  | cmove | cmovne | cmovl | cmovle | cmovg | cmovge =>
    obtain ⟨h0, h1⟩ := List.forall_mem_append.1 hS
    -- The destination counts as read, so it may be left as it is.
    have hread : ∀ r, T r → S r := fun r hr =>
      (hdest nofun r hr).elim id fun hd => h1 r (mem_operandReads hd List.mem_cons_self)
    refine bind (condition _) fun taken => ?_
    cases taken with
    | true =>
      exact readOperand h0 fun _ =>
        writeOperand (fun r hr => h1 r (addressReads_subset hr)) (fun r hr => .inl (hread r hr)) _
    | false => exact pure hread _
  | jmp | je | jne | jle | call | retq | nop => exact pure (hfixed nofun rfl) _

end Act.Parallel

end MicroC
