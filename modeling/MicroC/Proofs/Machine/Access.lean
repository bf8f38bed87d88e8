import MicroC.Proofs.Machine.Frame
import MicroC.Proofs.Machine.Trace

/-!
# Words that a step goes to

Every step reads and writes the words at a few addresses, which the processor's registers tell beforehand.

* `Cell.accesses`: these addresses.
* `Cpu.AgreeAt`: two processors with the same words there.
* `Act.GoesTo`: an action reads and writes the words at some addresses only.
* **`Act.GoesTo.execute`**: instructions on data, by their opcode.
* **`step_goesTo`**: all instructions.
-/

namespace MicroC

open Convention

/-! ## Addresses -/

namespace Cpu

/-- Where a push puts a word. -/
def pushAddress (c : Cpu) : Nat := (c.get .rsp - Int64.ofNat wordSize).toUInt64.toNat

/-- Where argument number `n` of a call of the runtime is if it is on the stack. -/
def argumentAddress? (c : Cpu) (n : Nat) : Option Nat :=
  if n < argumentRegisters.length then none else some (c.rsp + (n - argumentRegisters.length) * wordSize)

end Cpu

/-- Where an operand is if it is in memory. -/
def Arg.addresses (c : Cpu) : Arg → List Nat
  | .memory d b => [(c.get b + d).toUInt64.toNat]
  | _ => []

/-- Where operand `n` of an instruction is if it is in memory. -/
def Act.operandAddresses (args : List Arg) (n : Nat) (c : Cpu) : List Nat :=
  match args[n]? with
  | some a => a.addresses c
  | none => []

/-- The addresses that an instruction on data goes to. -/
def Act.dataAccesses (opcode : Opcode) (args : List Arg) (c : Cpu) : List Nat :=
  match opcode with
  | .pushq => operandAddresses args 0 c ++ [c.pushAddress]
  | .popq => c.rsp :: operandAddresses args 0 c.popped
  | .movq | .addq | .subq | .imulq | .cmpq => operandAddresses args 0 c ++ operandAddresses args 1 c
  | .negq | .idivq => operandAddresses args 0 c
  | .cmove | .cmovne | .cmovl | .cmovle | .cmovg | .cmovge =>
    if c.flags.any fun f => holds opcode f.1 f.2 then operandAddresses args 0 c ++ operandAddresses args 1 c
    else []
  | .cqto | .jmp | .je | .jne | .jle | .call | .retq | .nop => []

/-- The addresses that a step goes to. -/
def Cell.accesses {σ : Type} [Runtime σ] (c : Cpu) (host : σ) : Cell → List Nat
  | .data .retq _ => [c.rsp]
  | .data opcode args => Act.dataAccesses opcode args c
  | .call (.label _ _ :: _) => [c.pushAddress]
  | .call (.symbol name :: _) =>
    match Runtime.arity name host with
    | some n => (List.range n).filterMap c.argumentAddress?
    | none => []
  | _ => []

/-- Nothing differs but words of the stack that are not at these addresses. -/
structure Cpu.AgreeAt (as : List Nat) (c d : Cpu) : Prop where
  registers : d.registers = c.registers
  flags : d.flags = c.flags
  returns : d.returns = c.returns
  word : ∀ a ∈ as, ∀ i, slot? a = some i → d.stack.get i = c.stack.get i

namespace Cpu.AgreeAt

variable {as : List Nat} {c d : Cpu}

theorem get (h : c.AgreeAt as d) (r : Register) : d.get r = c.get r := by
  rw [Cpu.get, Cpu.get, h.registers]

theorem set (h : c.AgreeAt as d) (r : Register) (w : Int64) : (c.set r w).AgreeAt as (d.set r w) :=
  ⟨congrArg (Registers.set · r w) h.registers, h.flags, h.returns, h.word⟩

theorem store (h : c.AgreeAt as d) (i : Fin stackWords) (w : Int64) :
    ({ c with stack := c.stack.set i w i.isLt } : Cpu).AgreeAt as { d with stack := d.stack.set i w i.isLt } := by
  refine ⟨h.registers, h.flags, h.returns, fun a ha j hj => ?_⟩
  show (d.stack.set i.1 w)[j.1] = (c.stack.set i.1 w)[j.1]
  rw [Vector.getElem_set, Vector.getElem_set]
  split
  · rfl
  · exact h.word a ha j hj

end Cpu.AgreeAt

/-! ## Actions -/

namespace Act

variable {α β : Type}

/-- The processor behind an action, even if it fails. -/
def behind (x : Act α) (c : Cpu) : Cpu :=
  match x c with
  | .ok _ d => d
  | .error _ d => d

/-- From this processor on an action reads and writes the words at these addresses only, and if it does not fail
there is a word at each of them. -/
structure GoesTo (x : Act α) (c : Cpu) (as : List Nat) : Prop where
  valid : ∀ v d, x c = .ok v d → ∀ a ∈ as, (slot? a).isSome
  reads : ∀ v d, x c = .ok v d → ∀ bs, as ⊆ bs → ∀ c', c.AgreeAt bs c' → ∃ d', x c' = .ok v d' ∧ d.AgreeAt bs d'
  writes : ∀ i, (∀ a ∈ as, slot? a ≠ some i) → (x.behind c).stack.get i = c.stack.get i

namespace GoesTo

variable {c : Cpu} {as bs : List Nat}

theorem congr {x : Act α} (h : GoesTo x c as) (hab : ∀ a, a ∈ as ↔ a ∈ bs) : GoesTo x c bs where
  valid v d hd a ha := h.valid v d hd a ((hab a).2 ha)
  reads v d hd cs hcs := h.reads v d hd cs fun a ha => hcs ((hab a).1 ha)
  writes i hi := h.writes i fun a ha => hi a ((hab a).1 ha)

theorem pure (v : α) : GoesTo (Pure.pure v : Act α) c [] where
  valid _ _ _ _ ha := nomatch ha
  reads := by
    intro v d h bs _ c' hc'
    cases h
    exact ⟨c', rfl, hc'⟩
  writes _ _ := rfl

theorem throw (e : MachineError) : GoesTo (throw e : Act α) c as := ⟨nofun, nofun, fun _ _ => rfl⟩

theorem fails (e : MachineError) (f : α → Act β) : GoesTo ((MonadExcept.throw e : Act α) >>= f) c as :=
  ⟨nofun, nofun, fun _ _ => rfl⟩

theorem bind {x : Act α} {f : α → Act β} (hx : GoesTo x c as)
    (hf : ∀ v d, x c = .ok v d → GoesTo (f v) d bs) : GoesTo (x >>= f) c (as ++ bs) := by
  cases hxc : x c with
  | error e d =>
    have hbind : (x >>= f) c = .error e d := bind_of_error hxc f
    refine ⟨fun v d' h => ?_, fun v d' h => ?_, fun i hi => ?_⟩
    · rw [hbind] at h
      cases h
    · rw [hbind] at h
      cases h
    · rw [behind, hbind]
      have hkept := hx.writes i fun a ha => hi a (List.mem_append_left _ ha)
      rw [behind, hxc] at hkept
      exact hkept
  | ok v d =>
    have hbind : (x >>= f) c = f v d := bind_of_ok hxc f
    have hfd := hf v d hxc
    refine ⟨fun w e h a ha => ?_, fun w e h cs hcs c' hc' => ?_, fun i hi => ?_⟩
    · rw [hbind] at h
      rcases List.mem_append.1 ha with ha | ha
      · exact hx.valid v d hxc a ha
      · exact hfd.valid w e h a ha
    · rw [hbind] at h
      obtain ⟨d', hd', hagree⟩ := hx.reads v d hxc cs (fun a ha => hcs (List.mem_append_left _ ha)) c' hc'
      obtain ⟨e', he', hagree'⟩ := hfd.reads w e h cs (fun a ha => hcs (List.mem_append_right _ ha)) d' hagree
      exact ⟨e', (bind_of_ok hd' f).trans he', hagree'⟩
    · rw [behind, hbind]
      have hkept := hx.writes i fun a ha => hi a (List.mem_append_left _ ha)
      rw [behind, hxc] at hkept
      exact (hfd.writes i fun a ha => hi a (List.mem_append_right _ ha)).trans hkept

theorem bind_nil {x : Act α} {f : α → Act β} (hx : GoesTo x c [])
    (hf : ∀ v d, x c = .ok v d → GoesTo (f v) d bs) : GoesTo (x >>= f) c bs :=
  hx.bind hf

theorem nil_bind {x : Act α} {f : α → Act β} (hx : GoesTo x c as)
    (hf : ∀ v d, x c = .ok v d → GoesTo (f v) d []) : GoesTo (x >>= f) c as := by
  have h := hx.bind hf
  rwa [List.append_nil] at h

theorem bind_same {x : Act α} {f : α → Act β} (hx : GoesTo x c as) (hsame : Keeps id x)
    (hf : ∀ v, GoesTo (f v) c bs) : GoesTo (x >>= f) c (as ++ bs) :=
  hx.bind fun v d hd => by
    rw [show d = c from hsame c v d hd]
    exact hf v

theorem get (r : Register) : GoesTo (Act.get r) c [] where
  valid _ _ _ _ ha := nomatch ha
  reads := by
    intro v d h bs _ c' hc'
    cases h
    refine ⟨c', ?_, hc'⟩
    rw [Act.get, hc'.get]
  writes _ _ := rfl

theorem set (r : Register) (w : Int64) : GoesTo (Act.set r w) c [] where
  valid _ _ _ _ ha := nomatch ha
  reads := by
    intro v d h bs _ c' hc'
    cases h
    exact ⟨_, rfl, hc'.set r w⟩
  writes _ _ := rfl

theorem setFlags (f : Option (Int64 × Int64)) : GoesTo (modify fun c : Cpu => { c with flags := f }) c [] where
  valid _ _ _ _ ha := nomatch ha
  reads := by
    intro v d h bs _ c' hc'
    cases h
    exact ⟨_, rfl, hc'.registers, rfl, hc'.returns, hc'.word⟩
  writes _ _ := rfl

theorem condition (opcode : Opcode) : GoesTo (Act.condition opcode) c [] where
  valid _ _ _ _ ha := nomatch ha
  reads := by
    intro v d h bs _ c' hc'
    unfold Act.condition at h ⊢
    rw [hc'.flags]
    split at h
    · cases h
      exact ⟨c', rfl, hc'⟩
    · cases h
  writes i _ := by
    unfold behind Act.condition
    cases c.flags <;> rfl

theorem load (a : Nat) : GoesTo (Act.load a) c [a] := by
  cases hs : slot? a with
  | none =>
    have h := load_of_none hs c
    refine ⟨fun v d hd => ?_, fun v d hd => ?_, fun i _ => ?_⟩
    · rw [h] at hd
      cases hd
    · rw [h] at hd
      cases hd
    · rw [behind, h]
  | some i =>
    have h := load_of_slot hs c
    refine ⟨fun v d hd b hb => ?_, fun v d hd bs hbs c' hc' => ?_, fun j _ => ?_⟩
    · rw [List.mem_singleton.1 hb, hs]
      rfl
    · rw [h] at hd
      cases hd
      refine ⟨c', ?_, hc'⟩
      rw [load_of_slot hs, hc'.word a (hbs List.mem_cons_self) i hs]
    · rw [behind, h]

theorem store (a : Nat) (w : Int64) : GoesTo (Act.store a w) c [a] := by
  cases hs : slot? a with
  | none =>
    have h := store_of_none hs w c
    refine ⟨fun v d hd => ?_, fun v d hd => ?_, fun i _ => ?_⟩
    · rw [h] at hd
      cases hd
    · rw [h] at hd
      cases hd
    · rw [behind, h]
  | some i =>
    have h := store_of_slot hs w c
    refine ⟨fun v d hd b hb => ?_, fun v d hd bs hbs c' hc' => ?_, fun j hj => ?_⟩
    · rw [List.mem_singleton.1 hb, hs]
      rfl
    · rw [h] at hd
      cases hd
      exact ⟨_, store_of_slot hs w c', hc'.store i w⟩
    · have hij : i.1 ≠ j.1 := fun hij => hj a List.mem_cons_self (hs.trans (congrArg some (Fin.ext hij)))
      rw [behind, h]
      exact Vector.getElem_set_ne i.isLt j.isLt hij

theorem push (w : Int64) : GoesTo (Act.push w) c [c.pushAddress] := by
  refine bind_nil (get .rsp) fun v d hd => ?_
  cases hd
  dsimp only
  split
  · exact fails _ _
  · exact nil_bind (store _ w) fun _ _ _ => set _ _

theorem pop : GoesTo Act.pop c [c.rsp] := by
  refine bind_nil (get .rsp) fun v d hd => ?_
  cases hd
  exact nil_bind (load _) fun w d _ => bind_nil (set _ _) fun _ _ _ => pure _

theorem eq_popped {v : Int64} {d : Cpu} (h : Act.pop c = .ok v d) : d = c.popped := by
  cases hs : slot? c.rsp with
  | none =>
    rw [pop_of_none hs] at h
    cases h
  | some i =>
    rw [pop_of_slot hs] at h
    cases h
    rfl

theorem address (d : Int64) (b : Register) : GoesTo (Act.address d b) c [] :=
  bind_nil (get b) fun _ _ _ => pure _

theorem read (a : Arg) : GoesTo (Act.read a) c (a.addresses c) := by
  cases a with
  | immediate w => exact pure _
  | register r => exact get _
  | memory d b =>
    refine bind_nil (address d b) fun v e he => ?_
    cases he
    exact load _

theorem write (opcode : Opcode) (a : Arg) (w : Int64) : GoesTo (Act.write opcode a w) c (a.addresses c) := by
  cases a with
  | immediate w => exact throw _
  | register r => exact set _ _
  | memory d b =>
    refine bind_nil (address d b) fun v e he => ?_
    cases he
    exact store _ _

theorem operand {opcode : Opcode} {args : List Arg} {n : Nat} {f : Arg → Act β}
    (hf : ∀ a, args[n]? = some a → GoesTo (f a) c as) : GoesTo (Act.operand opcode args n >>= f) c as := by
  rw [operand_bind]
  split
  · next a ha => exact hf a ha
  · exact throw _

theorem writeOperand {opcode : Opcode} {args : List Arg} {n : Nat} (w : Int64) :
    GoesTo (Act.operand opcode args n >>= fun a => Act.write opcode a w) c (operandAddresses args n c) :=
  operand fun a ha => by
    rw [operandAddresses, ha]
    exact write opcode a w

theorem readOperand {opcode : Opcode} {args : List Arg} {n : Nat} {f : Int64 → Act β}
    (hf : ∀ w, GoesTo (f w) c bs) :
    GoesTo (Act.operand opcode args n >>= fun a => Act.read a >>= f) c (operandAddresses args n c ++ bs) :=
  operand fun a ha => by
    rw [operandAddresses, ha]
    exact (read a).bind_same (.read a) hf

theorem updateOperand {opcode : Opcode} {args : List Arg} {n : Nat} (f : Int64 → Int64) :
    GoesTo (Act.operand opcode args n >>= fun a => Act.read a >>= fun w => Act.write opcode a (f w)) c
      (operandAddresses args n c) :=
  operand fun a ha => by
    rw [operandAddresses, ha]
    refine ((read a).bind_same (.read a) fun w => write opcode a (f w)).congr fun b => ?_
    rw [List.mem_append, or_self_iff]

theorem divide (w : Int64) : GoesTo (Act.divide w) c [] := by
  unfold Act.divide
  split
  · exact fails _ _
  · refine bind_nil (get _) fun high _ _ => bind_nil (get _) fun low _ _ => ?_
    split
    · exact fails _ _
    · dsimp only
      split
      · exact throw _
      · exact bind_nil (set _ _) fun _ _ _ => set _ _

theorem branch {opcode : Opcode} {x : Act Unit} (hx : GoesTo x c as) :
    GoesTo (Act.condition opcode >>= fun taken => if taken then x else Pure.pure ()) c
      (if c.flags.any fun f => holds opcode f.1 f.2 then as else []) := by
  refine bind_nil (condition opcode) fun taken d hd => ?_
  unfold Act.condition at hd
  split at hd
  · next dst src hflags =>
    cases hd
    rw [hflags, Option.any_some]
    cases holds opcode dst src with
    | true => exact hx
    | false => exact pure _
  · cases hd

/-- **The words that an instruction on data goes to.** -/
theorem execute (opcode : Opcode) (args : List Arg) :
    GoesTo (Act.execute opcode args) c (dataAccesses opcode args c) := by
  cases opcode with
  | pushq => exact readOperand fun _ => push _
  | popq =>
    show GoesTo (Act.pop >>= _) c ([c.rsp] ++ operandAddresses args 0 c.popped)
    refine pop.bind fun v d hd => ?_
    rw [eq_popped hd]
    exact writeOperand v
  | movq => exact readOperand fun w => writeOperand w
  | addq | subq | imulq => exact readOperand fun w => updateOperand _
  | negq => exact updateOperand _
  | cqto => exact bind_nil (get _) fun _ _ _ => set _ _
  | idivq => exact (readOperand divide).congr fun a => by rw [List.append_nil]; rfl
  | cmpq =>
    refine readOperand fun src => (readOperand fun dst => setFlags _).congr fun a => ?_
    rw [List.append_nil]
  | cmove | cmovne | cmovl | cmovle | cmovg | cmovge => exact branch (readOperand fun w => writeOperand w)
  | jmp | je | jne | jle | call | retq | nop => exact pure _

theorem argument (n : Nat) : GoesTo (Act.argument n) c (c.argumentAddress? n).toList := by
  unfold Act.argument Cpu.argumentAddress?
  by_cases hn : n < argumentRegisters.length
  · rw [if_pos hn, List.getElem?_eq_getElem hn]
    dsimp only
    split
    · exact get _
    · exact pure _
  · rw [if_neg hn, List.getElem?_eq_none (Nat.le_of_not_lt hn)]
    refine bind_nil (get .rsp) fun v d hd => ?_
    cases hd
    exact load _

theorem argumentsFrom (n k : Nat) :
    GoesTo (Act.argumentsFrom n k) c ((List.range' n k).filterMap c.argumentAddress?) := by
  induction k generalizing n with
  | zero => exact pure _
  | succ k ih =>
    rw [List.range'_succ, List.filterMap_cons]
    have h := (argument n).bind_same (.argument n) fun w =>
      nil_bind (f := fun ws => Pure.pure (w :: ws)) (ih (n + 1)) fun _ _ _ => pure _
    cases hn : c.argumentAddress? n with
    | none =>
      rw [hn] at h
      exact h
    | some a =>
      rw [hn] at h
      exact h

theorem checkAlignment (function : String) : GoesTo (Act.checkAlignment function) c [] where
  valid _ _ _ _ ha := nomatch ha
  reads := by
    intro v d h bs _ c' hc'
    unfold Act.checkAlignment Cpu.rsp at h ⊢
    rw [hc'.get]
    split at h
    · cases h
      exact ⟨c', by rw [if_pos ‹_›], hc'⟩
    · cases h
  writes i _ := by
    unfold behind Act.checkAlignment
    by_cases h : c.rsp % stackAlignment = 0
    · rw [if_pos h]
    · rw [if_neg h]

theorem aligned {function : String} {x : Act α} (hx : GoesTo x c as) :
    GoesTo (Act.checkAlignment function >>= fun _ => x) c as := by
  refine bind_nil (checkAlignment function) fun _ d hd => ?_
  unfold Act.checkAlignment at hd
  split at hd
  · cases hd
    exact hx
  · cases hd

theorem addReturn (w : Int64) :
    GoesTo (modify fun c : Cpu => { c with returns := w :: c.returns }) c [] where
  valid _ _ _ _ ha := nomatch ha
  reads := by
    intro v d h bs _ c' hc'
    cases h
    exact ⟨_, rfl, hc'.registers, hc'.flags, congrArg (w :: ·) hc'.returns, hc'.word⟩
  writes _ _ := rfl

theorem takeReturn :
    GoesTo (modifyGet fun c : Cpu => (c.returns.head?, { c with returns := c.returns.tail })) c [] where
  valid _ _ _ _ ha := nomatch ha
  reads := by
    intro v d h bs _ c' hc'
    cases h
    rw [← hc'.returns]
    exact ⟨_, rfl, hc'.registers, hc'.flags, rfl, hc'.word⟩
  writes _ _ := rfl

theorem enter (name : String) (address pc : Nat) : GoesTo (Act.enter name address pc) c [c.pushAddress] :=
  aligned (nil_bind (push _) fun _ _ _ => bind_nil (addReturn _) fun _ _ _ => pure _)

theorem leave : GoesTo Act.leave c [c.rsp] := by
  refine nil_bind pop fun address c _ => bind_nil takeReturn fun expected c _ => ?_
  dsimp only
  split
  · exact fails _ _
  · split
    · exact bind_nil (get _) fun _ _ _ => pure _
    · exact pure _

theorem jump (opcode : Opcode) (targets : List Nat) : GoesTo (Act.jump opcode targets) c [] := by
  have hgo : ∀ (x : Act Next) (_ : ∀ c, GoesTo x c []) (taken : Bool) (c : Cpu),
      GoesTo (if taken = true then x else Pure.pure Next.advance) c [] := by
    intro x hx taken c
    split
    · exact hx c
    · exact pure _
  unfold Act.jump
  cases targets.head? with
  | none =>
    dsimp only
    split
    · exact bind_nil (pure true) fun _ _ _ => hgo _ (fun _ => throw _) _ _
    · exact bind_nil (condition opcode) fun _ _ _ => hgo _ (fun _ => throw _) _ _
  | some address =>
    dsimp only
    split
    · exact bind_nil (pure true) fun _ _ _ => hgo _ (fun _ => pure _) _ _
    · exact bind_nil (condition opcode) fun _ _ _ => hgo _ (fun _ => pure _) _ _

theorem prepare (name : String) (arity : Option Nat) :
    GoesTo (Act.prepare name arity) c (match arity with
      | some n => (List.range n).filterMap c.argumentAddress?
      | none => []) := by
  cases arity with
  | none => exact throw _
  | some n =>
    dsimp only
    rw [List.range_eq_range']
    exact aligned (argumentsFrom 0 n)

end GoesTo

end Act

/-! ## Steps -/

variable {σ : Type}

/-- From this processor on a step reads and writes the words at these addresses only, and if it does not fail
there is a word at each of them. -/
structure Stepped.GoesTo (f : Cpu → Stepped σ) (c : Cpu) (as : List Nat) : Prop where
  valid : ∀ n, (f c).next = .ok n → ∀ a ∈ as, (slot? a).isSome
  reads : ∀ n, (f c).next = .ok n → ∀ c', c.AgreeAt as c' →
    (f c').next = .ok n ∧ (f c').host = (f c).host ∧ (f c).cpu.AgreeAt as (f c').cpu
  writes : ∀ i, (∀ a ∈ as, slot? a ≠ some i) → (f c).cpu.stack.get i = c.stack.get i

theorem Act.GoesTo.step {act : Act Next} {c : Cpu} {as : List Nat} (h : act.GoesTo c as) (host : σ) :
    Stepped.GoesTo (fun d => act.step d host) c as := by
  have hbehind : (act.step c host).cpu = act.behind c := by
    unfold Act.step behind
    cases act c <;> rfl
  have hok : ∀ n, (act.step c host).next = .ok n → ∃ d, act c = .ok n d := by
    intro n hn
    unfold Act.step at hn
    cases hc : act c with
    | ok v d =>
      rw [hc] at hn
      cases hn
      exact ⟨d, rfl⟩
    | error e d =>
      rw [hc] at hn
      cases hn
  refine ⟨fun n hn => ?_, fun n hn c' hc' => ?_, fun i hi => ?_⟩
  · obtain ⟨d, hd⟩ := hok n hn
    exact h.valid n d hd
  · obtain ⟨d, hd⟩ := hok n hn
    obtain ⟨d', hd', hagree⟩ := h.reads n d hd as (List.Subset.refl as) c' hc'
    rw [Act.step, Act.step, hd, hd']
    exact ⟨rfl, rfl, hagree⟩
  · rw [hbehind]
    exact h.writes i hi

variable [Runtime σ]

theorem callHost_of_prepare {name : String} {c d : Cpu} {host : σ} {args : List Int64}
    (h : Act.prepare name (Runtime.arity name host) c = .ok args d) :
    callHost name c host = match Runtime.call name args host with
      | (.error e, host) => ⟨.error e, d, host⟩
      | (.ok w, host) => ⟨.ok .advance, d.set .rax w, host⟩ := by
  rcases hcall : Runtime.call name args host with ⟨e | w, host'⟩ <;> simp only [callHost, h, hcall]

theorem callHost_goesTo (name : String) (c : Cpu) (host : σ) :
    Stepped.GoesTo (fun d => callHost name d host) c (Cell.accesses c host (.call [.symbol name])) := by
  have h : Act.GoesTo (Act.prepare name (Runtime.arity name host)) c
      (Cell.accesses c host (.call [.symbol name])) := .prepare name _
  generalize Cell.accesses c host (.call [.symbol name]) = as at h
  cases hc : Act.prepare name (Runtime.arity name host) c with
  | error e d =>
    have hcall : callHost name c host = ⟨.error e, d, host⟩ := by rw [callHost, hc]
    refine ⟨fun n hn => ?_, fun n hn => ?_, fun i hi => ?_⟩
    · rw [hcall] at hn
      cases hn
    · rw [hcall] at hn
      cases hn
    · have hkept := h.writes i hi
      rw [Act.behind, hc] at hkept
      rw [hcall]
      exact hkept
  | ok args d =>
    have hcall := callHost_of_prepare hc
    refine ⟨fun n _ => h.valid args d hc, fun n hn c' hc' => ?_, fun i hi => ?_⟩
    · obtain ⟨d', hd', hagree⟩ := h.reads args d hc as (List.Subset.refl as) c' hc'
      rw [hcall, callHost_of_prepare hd']
      rw [hcall] at hn
      generalize Runtime.call name args host = called at hn
      rcases called with ⟨e | w, host'⟩
      · cases hn
      · exact ⟨hn, rfl, hagree.set .rax w⟩
    · have hkept := h.writes i hi
      rw [Act.behind, hc] at hkept
      rw [hcall]
      rcases Runtime.call name args host with ⟨e | w, host'⟩ <;> exact hkept

/-- **The words that a step goes to.** -/
theorem step_goesTo (pc : Nat) (cell : Cell) (c : Cpu) (host : σ) :
    Stepped.GoesTo (fun d => step pc cell d host) c (cell.accesses c host) := by
  cases cell with
  | data opcode args =>
    by_cases ho : opcode = .retq
    · subst ho
      exact Act.GoesTo.leave.step host
    · have haccesses : Cell.accesses c host (.data opcode args) = Act.dataAccesses opcode args c := by
        cases opcode <;> first | rfl | exact absurd rfl ho
      rw [haccesses]
      simp only [step_of_data ho]
      exact Act.GoesTo.step (.nil_bind (.execute opcode args) fun _ _ _ => .pure _) host
  | jump opcode targets => exact (Act.GoesTo.jump opcode targets).step host
  | call targets =>
    cases targets with
    | nil => exact Act.GoesTo.step (.throw _) host
    | cons t targets =>
      cases t with
      | label name address => exact (Act.GoesTo.enter name address pc).step host
      | symbol name => exact callHost_goesTo name c host

end MicroC
