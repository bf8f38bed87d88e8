import MicroC.Proofs.Machine.Access

/-!
# Returns

Code may do to the stack what it likes: a return still goes to the place behind the latest call that has not
returned, or the run ends.

* `Code.visits`: the points at which a run executes instructions.
* `Code.pending`: the calls that have not returned behind some of them.
* `Code.Guarded`: what may come of an instruction.
* **`Machine.keepsCalls`**: every instruction of every run is like that.
-/

namespace MicroC

open Convention

/-! ## Calls that have not returned -/

namespace Cell

def isReturn : Cell → Bool
  | .data .retq _ => true
  | _ => false

/-- A call of a block of the module. -/
def callsLabel : Cell → Bool
  | .call (.label _ _ :: _) => true
  | _ => false

end Cell

variable {σ : Type}

/-- A return at this point would find this word. -/
def Point.Finds (p : Point σ) (w : Int64) : Prop := ∃ i, slot? p.cpu.rsp = some i ∧ p.cpu.stack.get i = w

/-- The word that a return must find, for the places behind the calls that have not returned. -/
def returnWord : List Nat → Int64
  | [] => haltAddress
  | address :: _ => Int64.ofNat address

namespace Code

def returnsAt (code : Code) (p : Point σ) : Bool := code.cells[p.pc]?.any Cell.isReturn

def callsAt (code : Code) (p : Point σ) : Bool := code.cells[p.pc]?.any Cell.callsLabel

/-- The places behind the calls that have not returned, the latest first, behind one more instruction. -/
def pendingBehind (code : Code) (pending : List Nat) (p : Point σ) : List Nat :=
  if code.callsAt p then (p.pc + 1) :: pending
  else if code.returnsAt p then pending.tail
  else pending

/-- The places behind the calls that have not returned, the latest first, once the instructions at some points
have been executed. -/
def pending (code : Code) (visited : List (Point σ)) : List Nat := visited.foldl code.pendingBehind []

variable [Runtime σ]

/-- The points at which a run with a limit executes instructions. -/
def visits (code : Code) : Nat → Point σ → List (Point σ)
  | 0, _ => []
  | n + 1, p =>
    p :: match p.next code with
      | .ok q => code.visits n q
      | .error _ => []

/-- The addresses that the instruction at a point goes to. -/
def accesses (code : Code) (p : Point σ) : List Nat :=
  match code.cells[p.pc]? with
  | some cell => cell.accesses p.cpu p.host
  | none => []

/-- The processor behind the instruction at a point, even if it fails. -/
def cpuBehind (code : Code) (p : Point σ) : Cpu :=
  match p.next code with
  | .ok q => q.cpu
  | .error f => f.cpu

/-- What comes of the instruction at a point of a run with this result, if these calls have not returned. -/
structure Guarded (code : Code) (result : Except MachineError Int64) (pending : List Nat) (p : Point σ) : Prop where
  /-- A return behind which the run goes on takes it behind the latest call. -/
  back : code.returnsAt p → ∀ q, p.next code = .ok q → pending.head? = some q.pc
  /-- A return that finds the word for it takes the run there. -/
  goes : code.returnsAt p → ∀ address ∈ pending.head?, p.Finds (Int64.ofNat address) →
    ∃ q, p.next code = .ok q ∧ q.pc = address
  /-- If there is no call to return from, a return that finds the word for that ends the run. -/
  halts : code.returnsAt p → pending = [] → p.Finds haltAddress → result = .ok (p.cpu.get .rax)
  /-- A return that finds another word ends the run. -/
  corrupt : code.returnsAt p → ∀ w, p.Finds w → w ≠ returnWord pending → result = .error .corruptReturnAddress
  /-- An instruction that does not fail goes to aligned words of the stack. -/
  valid : (∀ f, p.next code = .error f → ∃ w, f.result = .ok w) → ∀ address ∈ code.accesses p,
    stackBottom ≤ address ∧ address < stackTop ∧ address % wordSize = 0
  /-- What it does depends on no other words. -/
  reads : ∀ q, p.next code = .ok q → ∀ d, p.cpu.AgreeAt (code.accesses p) d →
    ∃ d', Point.next code ⟨p.pc, d, p.host⟩ = .ok ⟨q.pc, d', q.host⟩ ∧ q.cpu.AgreeAt (code.accesses p) d'
  /-- All other words stay as they are, even if it fails. -/
  writes : ∀ i : Fin stackWords, stackTop - wordSize * (i + 1) ∉ code.accesses p →
    (code.cpuBehind p).stack.get i = p.cpu.stack.get i

end Code

/-- The points at which a run of a machine from a label executes instructions. -/
def Machine.visits [Runtime σ] (m : Machine σ) (entry : String) : List (Point σ) :=
  match m.code.labels.get? entry with
  | none => []
  | some pc => m.code.visits m.stepLimit ⟨pc, (entered m.stack).2, m.host⟩

/-- What holds of a run of a machine from a label. -/
structure Machine.KeepsCalls [Runtime σ] (m : Machine σ) (entry : String) : Prop where
  /-- It executes no more instructions than the limit allows. -/
  limited : (m.visits entry).length ≤ m.stepLimit
  /-- These are the steps that the machine counts. -/
  counted : m.code.labels.get? entry ≠ none → (m.run entry).2.steps = (m.visits entry).length
  /-- It ends with a result if and only if a return that has no call to return from finds the word for that. -/
  ends : (∃ w, (m.run entry).1 = .ok w) ↔ ∃ k p, (m.visits entry)[k]? = some p ∧ m.code.returnsAt p ∧
    m.code.pending ((m.visits entry).take k) = [] ∧ p.Finds haltAddress
  /-- Then one more return is executed than calls of blocks. -/
  balanced : (∃ w, (m.run entry).1 = .ok w) →
    (m.visits entry).countP m.code.returnsAt = (m.visits entry).countP m.code.callsAt + 1
  guarded : ∀ k p, (m.visits entry)[k]? = some p →
    m.code.Guarded (m.run entry).1 (m.code.pending ((m.visits entry).take k)) p

open Code

/-! ## One instruction -/

section Step

variable [Runtime σ] {code : Code} {pending : List Nat} {p q : Point σ} {f : Halt σ}

theorem Act.enter_ok {name : String} {address pc : Nat} {c d : Cpu} {n : Next}
    (h : enter name address pc c = .ok n d) :
    n = .goto address ∧ d.returns = Int64.ofNat (pc + 1) :: c.returns := by
  unfold enter at h
  cases hcheck : checkAlignment name c with
  | error e c' =>
    rw [bind_of_error hcheck] at h
    cases h
  | ok _ c' =>
    rw [bind_of_ok hcheck] at h
    cases hpush : push (Int64.ofNat (pc + 1)) c' with
    | error e d =>
      rw [bind_of_error hpush] at h
      cases h
    | ok _ d =>
      rw [bind_of_ok hpush] at h
      cases h
      have hreturns : d.returns = c.returns :=
        (KeepsReturns.push _ _ _ _ hpush).trans (Keeps.checkAlignment name _ _ _ hcheck)
      exact ⟨rfl, congrArg _ hreturns⟩

/-- A call leads to the start of a routine, with one more return address, and the host has no part in it. -/
theorem next_of_call {name : String} {address : Nat} {targets : List Target}
    (hcell : code.cells[p.pc]? = some (.call (.label name address :: targets))) (h : p.next code = .ok q) :
    q.pc = address ∧ q.cpu.returns = Int64.ofNat (p.pc + 1) :: p.cpu.returns ∧ q.host = p.host := by
  have hnext := Point.next_of_cell hcell
  rw [h, show step p.pc (.call (.label name address :: targets)) p.cpu p.host =
    (Act.enter name address p.pc).step p.cpu p.host from rfl, Act.step] at hnext
  cases henter : Act.enter name address p.pc p.cpu with
  | error e d =>
    rw [henter] at hnext
    cases hnext
  | ok n d =>
    obtain ⟨rfl, hreturns⟩ := Act.enter_ok henter
    rw [henter] at hnext
    cases hnext
    exact ⟨rfl, hreturns, rfl⟩

/-- An action that changes nothing and does not end the run. -/
def Act.Moves (x : Act Next) : Prop := ∀ c n d, x c = .ok n d → d = c ∧ ∀ w, n ≠ .halt w

/-- What a jump does if it is taken, or if not. -/
def Act.branchTo (opcode : Opcode) (targets : List Nat) (taken : Bool) : Act Next :=
  if taken then
    match targets.head? with
    | some address => Pure.pure (.goto address)
    | none => MonadExcept.throw (.invalidOperand opcode "")
  else Pure.pure .advance

theorem Act.moves_branchTo (opcode : Opcode) (targets : List Nat) (taken : Bool) :
    Moves (branchTo opcode targets taken) := by
  intro c n d h
  cases taken with
  | false =>
    cases h
    exact ⟨rfl, fun w hw => by cases hw⟩
  | true =>
    rw [branchTo, if_pos rfl] at h
    cases htarget : targets.head? with
    | none =>
      rw [htarget] at h
      cases h
    | some address =>
      rw [htarget] at h
      cases h
      exact ⟨rfl, fun w hw => by cases hw⟩

theorem Act.moves_jump (opcode : Opcode) (targets : List Nat) : Moves (jump opcode targets) := by
  have hjump : jump opcode targets =
      (if opcode = .jmp then Pure.pure true else condition opcode) >>= branchTo opcode targets := by
    unfold jump
    cases htarget : targets.head? <;> unfold branchTo <;> rw [htarget] <;> dsimp only <;> split <;> rfl
  intro c n d h
  rw [hjump] at h
  split at h
  · exact moves_branchTo opcode targets true c n d h
  · cases hc : condition opcode c with
    | error e c' =>
      rw [bind_of_error hc] at h
      cases h
    | ok taken c' =>
      rw [bind_of_ok hc, show c' = c from (Keeps.condition opcode : Keeps id _) c taken c' hc] at h
      exact moves_branchTo opcode targets taken c n d h

/-- Only returns end a run with a result, and only they and calls touch the return addresses. -/
theorem step_of_not_return {cell : Cell} (hr : cell.isReturn = false) (pc : Nat) (cpu : Cpu) (host : σ) :
    (∀ w, (step pc cell cpu host).next ≠ .ok (.halt w)) ∧
      (cell.callsLabel = false → ∀ n, (step pc cell cpu host).next = .ok n →
        (step pc cell cpu host).cpu.returns = cpu.returns) := by
  cases cell with
  | data opcode args =>
    have ho : opcode ≠ .retq := by
      rintro rfl
      cases hr
    rw [step_of_data ho, Act.step]
    cases hact : Act.execute opcode args cpu with
    | error e d =>
      rw [Act.bind_of_error hact]
      exact ⟨fun _ hw => (by cases hw), fun _ _ hn => by cases hn⟩
    | ok _ d =>
      rw [Act.bind_of_ok hact]
      exact ⟨fun _ hw => (by cases hw), fun _ _ _ => Act.KeepsReturns.execute opcode args _ _ _ hact⟩
  | jump opcode targets =>
    rw [show step pc (.jump opcode targets) cpu host = (Act.jump opcode targets).step cpu host from rfl, Act.step]
    cases hact : Act.jump opcode targets cpu with
    | error e d => exact ⟨fun _ hw => (by cases hw), fun _ _ hn => by cases hn⟩
    | ok n d =>
      obtain ⟨rfl, hn⟩ := Act.moves_jump opcode targets _ _ _ hact
      exact ⟨fun w hw => hn w (Except.ok.inj hw), fun _ _ _ => rfl⟩
  | call targets =>
    cases targets with
    | nil => exact ⟨fun _ hw => (by cases hw), fun _ _ hn => by cases hn⟩
    | cons t targets =>
      cases t with
      | label name address =>
        refine ⟨fun w hw => ?_, fun hc => by cases hc⟩
        rw [show step pc (.call (.label name address :: targets)) cpu host =
          (Act.enter name address pc).step cpu host from rfl, Act.step] at hw
        cases henter : Act.enter name address pc cpu with
        | error e d =>
          rw [henter] at hw
          cases hw
        | ok n d =>
          obtain ⟨rfl, -⟩ := Act.enter_ok henter
          rw [henter] at hw
          cases hw
      | symbol name =>
        rw [show step pc (.call (.symbol name :: targets)) cpu host = callHost name cpu host from rfl, callHost]
        cases hact : Act.prepare name (Runtime.arity name host) cpu with
        | error e d => exact ⟨fun _ hw => (by cases hw), fun _ _ hn => by cases hn⟩
        | ok args d =>
          dsimp only
          rcases Runtime.call name args host with ⟨e | w, host'⟩
          · exact ⟨fun _ hw => (by cases hw), fun _ _ hn => by cases hn⟩
          · have hreturns : d.returns = cpu.returns := (Act.Keeps.prepare name _ : Act.Keeps Cpu.returns _) _ _ _ hact
            exact ⟨fun _ hw => (by cases hw), fun _ _ _ => hreturns⟩

/-- The processor remembers the calls that have not returned. -/
structure Point.Remembers (p : Point σ) (pending : List Nat) : Prop where
  returns : p.cpu.returns = pending.map Int64.ofNat ++ [haltAddress]
  small : ∀ address ∈ pending, address < 2 ^ 63

omit [Runtime σ] in
theorem Point.Remembers.head (h : p.Remembers pending) : p.cpu.returns.head? = some (returnWord pending) := by
  rw [h.returns]
  cases pending <;> rfl

omit [Runtime σ] in
theorem Code.cell_of_returnsAt (h : code.returnsAt p) : ∃ args, code.cells[p.pc]? = some (.data .retq args) := by
  unfold Code.returnsAt at h
  cases hc : code.cells[p.pc]? with
  | none =>
    rw [hc] at h
    cases h
  | some cell =>
    rw [hc, Option.any_some] at h
    unfold Cell.isReturn at h
    split at h
    · next args => exact ⟨args, rfl⟩
    · cases h

omit [Runtime σ] in
theorem Code.cell_of_callsAt (h : code.callsAt p) :
    ∃ name address targets, code.cells[p.pc]? = some (.call (.label name address :: targets)) := by
  unfold Code.callsAt at h
  cases hc : code.cells[p.pc]? with
  | none =>
    rw [hc] at h
    cases h
  | some cell =>
    rw [hc, Option.any_some] at h
    unfold Cell.callsLabel at h
    split at h
    · exact ⟨_, _, _, rfl⟩
    · cases h

omit [Runtime σ] in
theorem Code.not_returnsAt (h : code.callsAt p) : code.returnsAt p = false := by
  obtain ⟨name, address, targets, hcell⟩ := cell_of_callsAt h
  rw [returnsAt, hcell]
  rfl

/-- Behind a return that finds the word for it. -/
def Point.returned (p : Point σ) (cpu : Cpu) : List Nat → Except (Halt σ) (Point σ)
  | [] => .error ⟨.ok (p.cpu.get .rax), cpu, p.host⟩
  | address :: _ => .ok ⟨address, cpu, p.host⟩

theorem Point.next_return (hat : code.returnsAt p) (h : p.Remembers pending) :
    p.next code =
      match slot? p.cpu.rsp with
      | none => .error ⟨.error (.invalidAddress p.cpu.rsp), p.cpu, p.host⟩
      | some i =>
        let cpu := { p.cpu.popped with returns := p.cpu.returns.tail }
        if p.cpu.stack.get i ≠ returnWord pending then .error ⟨.error .corruptReturnAddress, cpu, p.host⟩
        else p.returned cpu pending := by
  obtain ⟨args, hcell⟩ := Code.cell_of_returnsAt hat
  rw [Point.next_of_cell hcell, show step p.pc (.data .retq args) p.cpu p.host = Act.leave.step p.cpu p.host from rfl,
    Act.step]
  cases hs : slot? p.cpu.rsp with
  | none =>
    have hleave : Act.leave p.cpu = .error (.invalidAddress p.cpu.rsp) p.cpu := by
      unfold Act.leave
      exact Act.bind_of_error (Act.pop_of_none hs) _
    rw [hleave]
    rfl
  | some i =>
    rw [Act.leave_of_slot hs, h.head]
    dsimp only
    by_cases hw : p.cpu.stack.get i = returnWord pending
    · rw [hw, if_neg (not_not_intro rfl), if_neg (not_not_intro rfl)]
      cases pending with
      | nil =>
        rw [if_pos (show returnWord [] = haltAddress from rfl)]
        rfl
      | cons address rest =>
        have hplace := ofNat_place (h.small address List.mem_cons_self)
        rw [if_neg (show ¬ returnWord (address :: rest) = haltAddress from hplace.1)]
        show Except.ok (⟨(Int64.ofNat address).toInt.toNat, _, _⟩ : Point σ) = _
        rw [hplace.2]
        rfl
    · rw [if_pos (fun h => hw (Option.some.inj h).symm), if_pos hw]
      rfl

theorem Point.next_of_not_return (hat : code.returnsAt p = false) :
    (∀ f, p.next code = .error f → ∀ w, f.result ≠ .ok w) ∧
      (code.callsAt p = false → ∀ q, p.next code = .ok q → q.cpu.returns = p.cpu.returns) := by
  cases hcell : code.cells[p.pc]? with
  | none =>
    have hnext : p.next code = .error ⟨.error .ranOffEnd, p.cpu, p.host⟩ := by rw [Point.next, hcell]
    rw [hnext]
    refine ⟨fun f hf w hw => ?_, fun _ q hq => by cases hq⟩
    cases hf
    cases hw
  | some cell =>
    have hr : cell.isReturn = false := by rwa [Code.returnsAt, hcell] at hat
    have hstep := step_of_not_return hr p.pc p.cpu p.host
    rw [Point.next_of_cell hcell, Code.callsAt, hcell, Option.any_some]
    generalize step p.pc cell p.cpu p.host = stepped at hstep
    obtain ⟨hhalt, hreturns⟩ := hstep
    rcases stepped with ⟨e | n, cpu, host⟩
    · refine ⟨fun f hf w hw => ?_, fun _ q hq => by cases hq⟩
      cases hf
      cases hw
    · cases n with
      | halt w => exact absurd rfl (hhalt w)
      | advance =>
        refine ⟨fun f hf => (by cases hf), fun hc q hq => ?_⟩
        cases hq
        exact hreturns hc _ rfl
      | goto pc =>
        refine ⟨fun f hf => (by cases hf), fun hc q hq => ?_⟩
        cases hq
        exact hreturns hc _ rfl

/-- A run ends with a result at a return when there is no call to return from. -/
theorem Point.Remembers.halts (h : p.Remembers pending) (hf : p.next code = .error f) {w : Int64}
    (hw : f.result = .ok w) : code.returnsAt p ∧ pending = [] ∧ p.Finds haltAddress := by
  have hat : code.returnsAt p = true := by
    cases hat : code.returnsAt p with
    | true => rfl
    | false => exact absurd hw ((Point.next_of_not_return hat).1 f hf w)
  rw [Point.next_return hat h] at hf
  cases hslot : slot? p.cpu.rsp with
  | none =>
    rw [hslot] at hf
    cases hf
    cases hw
  | some i =>
    rw [hslot] at hf
    dsimp only at hf
    by_cases hword : p.cpu.stack.get i = returnWord pending
    · rw [if_neg (not_not_intro hword)] at hf
      cases pending with
      | nil => exact ⟨hat, rfl, i, hslot, hword⟩
      | cons address rest => cases hf
    · rw [if_pos hword] at hf
      cases hf
      cases hw

/-- A return behind which the run goes on takes it behind the latest call. -/
theorem Point.Remembers.back (h : p.Remembers pending) (hat : code.returnsAt p) (hq : p.next code = .ok q) :
    ∃ rest, pending = q.pc :: rest ∧ q.cpu.returns = p.cpu.returns.tail := by
  rw [Point.next_return hat h] at hq
  split at hq
  · cases hq
  · dsimp only at hq
    split at hq
    · cases hq
    · cases pending with
      | nil => cases hq
      | cons address rest =>
        cases hq
        exact ⟨rest, rfl, rfl⟩

/-- **One instruction.** Behind it the processor remembers the calls that have not returned. -/
theorem Point.Remembers.next (hsize : code.cells.size < 2 ^ 63) (h : p.Remembers pending)
    (hq : p.next code = .ok q) : q.Remembers (code.pendingBehind pending p) := by
  unfold Code.pendingBehind
  by_cases hc : code.callsAt p = true
  · rw [if_pos hc]
    obtain ⟨name, address, targets, hcell⟩ := Code.cell_of_callsAt hc
    obtain ⟨-, hreturns, -⟩ := next_of_call hcell hq
    have hlt : p.pc < code.cells.size := (Array.getElem?_eq_some_iff.1 hcell).1
    refine ⟨by rw [hreturns, h.returns]; rfl, fun a ha => ?_⟩
    rcases List.mem_cons.1 ha with rfl | ha
    · omega
    · exact h.small a ha
  · rw [if_neg hc]
    by_cases hr : code.returnsAt p = true
    · rw [if_pos hr]
      obtain ⟨rest, rfl, hreturns⟩ := h.back hr hq
      refine ⟨by rw [hreturns, h.returns]; rfl, fun a ha => h.small a (List.mem_cons_of_mem _ ha)⟩
    · rw [if_neg hr]
      refine ⟨?_, h.small⟩
      rw [(Point.next_of_not_return (Bool.eq_false_iff.2 hr)).2 (Bool.eq_false_iff.2 hc) q hq, h.returns]

/-! ## Words of the stack -/

theorem bounds_of_slot? {address : Nat} (h : (slot? address).isSome) :
    stackBottom ≤ address ∧ address < stackTop ∧ address % wordSize = 0 := by
  unfold slot? at h
  split at h
  · next hslot => exact hslot
  · cases h

theorem not_mem_of_slot? {as : List Nat} {i : Fin stackWords} (h : stackTop - wordSize * (i + 1) ∉ as) :
    ∀ a ∈ as, slot? a ≠ some i := by
  intro a ha hs
  have hi := i.isLt
  rw [address_of_slot? hs, toNat_addr (by simp only [wordSize, stackTop, stackWords] at *; omega)] at ha
  exact h ha

/-- An instruction goes to the words of the stack that it tells. -/
theorem Point.next_goesTo (code : Code) (p : Point σ) :
    ((∀ f, p.next code = .error f → ∃ w, f.result = .ok w) → ∀ a ∈ code.accesses p, (slot? a).isSome) ∧
      (∀ q, p.next code = .ok q → ∀ d, p.cpu.AgreeAt (code.accesses p) d →
        ∃ d', Point.next code ⟨p.pc, d, p.host⟩ = .ok ⟨q.pc, d', q.host⟩ ∧ q.cpu.AgreeAt (code.accesses p) d') ∧
      ∀ i, (∀ a ∈ code.accesses p, slot? a ≠ some i) → (code.cpuBehind p).stack.get i = p.cpu.stack.get i := by
  unfold Code.cpuBehind Code.accesses
  cases hcell : code.cells[p.pc]? with
  | none =>
    have hnext : p.next code = .error ⟨.error .ranOffEnd, p.cpu, p.host⟩ := by rw [Point.next, hcell]
    rw [hnext]
    refine ⟨fun _ a ha => ?_, fun q hq => ?_, fun _ _ => rfl⟩
    · cases ha
    · cases hq
  | some cell =>
    have hnext := Point.next_of_cell hcell
    have hgoes := step_goesTo p.pc cell p.cpu p.host
    have hvalid := hgoes.valid
    have hreads := hgoes.reads
    have hwrites := hgoes.writes
    dsimp only at hvalid hreads hwrites ⊢
    rw [hnext]
    refine ⟨fun hok => ?_, fun q hq d hd => ?_, fun i hi => ?_⟩
    · generalize step p.pc cell p.cpu p.host = stepped at hok hvalid
      rcases stepped with ⟨e | n, cpu, host⟩
      · obtain ⟨w, hw⟩ := hok _ rfl
        cases hw
      · exact hvalid n rfl
    · have hnext' : Point.next code ⟨p.pc, d, p.host⟩ = (step p.pc cell d p.host).after p.pc :=
        Point.next_of_cell hcell
      rw [hnext']
      generalize step p.pc cell p.cpu p.host = stepped at hq hreads
      rcases stepped with ⟨e | n, cpu, host⟩
      · cases hq
      · obtain ⟨hn, hhost, hagree⟩ := hreads n rfl d hd
        generalize step p.pc cell d p.host = stepped' at hn hhost hagree ⊢
        obtain ⟨_, cpu', _⟩ := stepped'
        cases hn
        cases hhost
        refine ⟨cpu', ?_, ?_⟩
        all_goals cases n <;> cases hq
        all_goals first | rfl | exact hagree
    · have hkept := hwrites i hi
      generalize step p.pc cell p.cpu p.host = stepped at hkept
      rcases stepped with ⟨e | n, cpu, host⟩
      · exact hkept
      · cases n <;> exact hkept

/-- **What may come of an instruction** in a run that ends with it if it fails. -/
theorem Point.Remembers.guarded {result : Except MachineError Int64} (h : p.Remembers pending)
    (hresult : ∀ f, p.next code = .error f → result = f.result) : code.Guarded result pending p := by
  obtain ⟨hvalid, hreads, hwrites⟩ := Point.next_goesTo code p
  refine ⟨fun hat q hq => ?_, fun hat address haddress hfinds => ?_, fun hat hpending hfinds => ?_,
    fun hat w hfinds hw => ?_, fun hok a ha => bounds_of_slot? (hvalid hok a ha), hreads,
    fun i hi => hwrites i (not_mem_of_slot? hi)⟩
  · obtain ⟨rest, rfl, -⟩ := h.back hat hq
    rfl
  all_goals
    have hnext := Point.next_return hat h
    obtain ⟨i, hslot, hword⟩ := hfinds
    rw [hslot] at hnext
    dsimp only at hnext
  · obtain ⟨rest, rfl⟩ := List.head?_eq_some_iff.1 haddress
    rw [if_neg (not_not_intro (show _ = returnWord (address :: rest) from hword))] at hnext
    exact ⟨_, hnext, rfl⟩
  · subst hpending
    rw [if_neg (not_not_intro (show _ = returnWord [] from hword))] at hnext
    exact hresult _ hnext
  · rw [if_pos (fun hc => hw (hword.symm.trans hc))] at hnext
    exact hresult _ hnext

end Step

/-! ## Runs -/

section Runs

variable [Runtime σ] {code : Code} {pending : List Nat} {p q : Point σ} {f : Halt σ} {limit left : Nat}

theorem Code.length_visits (code : Code) (left : Nat) (p : Point σ) : (code.visits left p).length ≤ left := by
  induction left generalizing p with
  | zero => exact Nat.le_refl 0
  | succ left ih =>
    rw [visits, List.length_cons]
    cases p.next code with
    | ok q => exact Nat.succ_le_succ (ih q)
    | error f => exact Nat.succ_le_succ (Nat.zero_le left)

/-- The instructions of a run are counted, and one that fails is the end of it. -/
theorem runFrom_visits (code : Code) (p : Point σ) (hl : left ≤ limit) :
    (runFrom code limit left p.pc p.cpu p.host).steps = limit - left + (code.visits left p).length ∧
      ∀ q ∈ code.visits left p, ∀ f, q.next code = .error f →
        (runFrom code limit left p.pc p.cpu p.host).result = f.result := by
  induction left generalizing p with
  | zero => exact ⟨(Nat.sub_zero limit).symm, nofun⟩
  | succ left ih =>
    rw [runFrom_succ, visits]
    cases hp : p.next code with
    | error f =>
      refine ⟨?_, fun q hq g hg => ?_⟩
      · dsimp only
        rw [List.length_singleton]
        omega
      · rw [List.mem_singleton.1 hq, hp] at hg
        cases hg
        rfl
    | ok x =>
      obtain ⟨hsteps, hends⟩ := ih x (by omega)
      dsimp only
      refine ⟨?_, fun q hq g hg => ?_⟩
      · rw [hsteps, List.length_cons]
        omega
      · rcases List.mem_cons.1 hq with rfl | hq
        · rw [hp] at hg
          cases hg
        · exact hends q hq g hg

/-- **All instructions of a run.** At each of them the processor remembers the calls that have not returned. -/
theorem Point.Remembers.visits (hsize : code.cells.size < 2 ^ 63) (h : p.Remembers pending) {k : Nat}
    (hk : (code.visits left p)[k]? = some q) :
    q.Remembers (((code.visits left p).take k).foldl code.pendingBehind pending) := by
  induction left generalizing p pending k with
  | zero => cases hk
  | succ left ih =>
    rw [Code.visits] at hk ⊢
    cases k with
    | zero =>
      cases hk
      exact h
    | succ k =>
      rw [List.getElem?_cons_succ] at hk
      rw [List.take_succ_cons, List.foldl_cons]
      cases hp : p.next code with
      | error f =>
        rw [hp] at hk
        cases hk
      | ok x =>
        rw [hp] at hk
        exact ih (h.next hsize hp) hk

/-- **A run that ends with a result** ends with a return of its own, and each of its calls has returned. -/
theorem Point.Remembers.ends (hsize : code.cells.size < 2 ^ 63) (h : p.Remembers pending) {w : Int64}
    (hw : (runFrom code limit left p.pc p.cpu p.host).result = .ok w) :
    (∃ k q, (code.visits left p)[k]? = some q ∧ code.returnsAt q ∧
      ((code.visits left p).take k).foldl code.pendingBehind pending = [] ∧ q.Finds haltAddress) ∧
    (code.visits left p).countP code.returnsAt =
      pending.length + (code.visits left p).countP code.callsAt + 1 := by
  induction left generalizing p pending with
  | zero => cases hw
  | succ left ih =>
    rw [runFrom_succ] at hw
    rw [Code.visits]
    cases hp : p.next code with
    | error f =>
      rw [hp] at hw
      obtain ⟨hat, rfl, hfinds⟩ := h.halts hp hw
      have hcall : code.callsAt p = false := by
        cases hc : code.callsAt p with
        | false => rfl
        | true => exact absurd hat (Bool.eq_false_iff.1 (Code.not_returnsAt hc))
      refine ⟨⟨0, p, rfl, hat, rfl, hfinds⟩, ?_⟩
      simp [hat, hcall]
    | ok x =>
      rw [hp] at hw
      obtain ⟨⟨k, q, hk, hat, hpending, hfinds⟩, hcount⟩ := ih (h.next hsize hp) hw
      refine ⟨⟨k + 1, q, hk, hat, hpending, hfinds⟩, ?_⟩
      rw [List.countP_cons, List.countP_cons, hcount]
      unfold Code.pendingBehind
      by_cases hc : code.callsAt p = true
      · simp [hc, Code.not_returnsAt hc]
        omega
      · by_cases hr : code.returnsAt p = true
        · obtain ⟨rest, rfl, -⟩ := h.back hr hp
          simp [hc, hr]
          omega
        · simp [hc, hr]

/-- The processor in front of a run remembers the return address that ends it. -/
theorem Machine.entered_ok (stack : Stack) :
    ∃ cpu, Machine.entered stack = (.ok (), cpu) ∧ cpu.returns = [haltAddress] := by
  have hrsp : (Cpu.start stack).get .rsp - Int64.ofNat wordSize = addr (0 + 1) := by
    rw [← addr_succ, addr_zero]
    exact congrArg (· - Int64.ofNat wordSize) (Registers.get_set_self _ _ _)
  have hpush := Act.push_of_slot haltAddress hrsp (not_addr_lt_stackBottom (by decide)) (slot?_addr (by decide))
  unfold Machine.entered
  rw [hpush]
  exact ⟨_, rfl, rfl⟩

theorem decodeAll_getElem? {labels : Labels} {is : List Instruction} {cs : List Cell}
    (h : decodeAll labels is = .ok cs) : cs.length = is.length ∧
      ∀ (pc : Nat) i, is[pc]? = some i → ∃ cell, cs[pc]? = some cell ∧ decode labels i = .ok cell := by
  induction is generalizing cs with
  | nil =>
    cases h
    exact ⟨rfl, nofun⟩
  | cons i is ih =>
    rw [decodeAll] at h
    split at h
    · cases h
    · next cell hcell =>
      cases hs : decodeAll labels is with
      | error e =>
        rw [hs] at h
        cases h
      | ok cs' =>
        rw [hs] at h
        cases h
        obtain ⟨hlen, hget⟩ := ih hs
        refine ⟨congrArg Nat.succ hlen, fun pc j hj => ?_⟩
        cases pc with
        | zero =>
          cases hj
          exact ⟨cell, rfl, hcell⟩
        | succ pc => exact hget pc j hj

theorem Code.size_ofModule {m : Module} (h : Code.ofModule m = .ok code) : code.cells.size = m.instructionCount := by
  rw [Code.ofModule] at h
  cases hcells : decodeAll (labelsFrom 0 .empty m.blocks) m.instructions with
  | error e =>
    rw [hcells] at h
    cases h
  | ok cells =>
    rw [hcells] at h
    cases h
    exact (decodeAll_getElem? hcells).1

/-- **Returns keep to calls.** A machine runs any code that a module gives, from any label, for any runtime and
with any limit on the number of steps. Whatever the code writes to the stack and to the stack pointer, each
return goes to the place behind the latest call that has not returned, ends the run in its turn, or fails, and
each instruction keeps to the words of the stack. There must be a word for the place of each instruction. -/
theorem Machine.keepsCalls {m : Module} {machine : Machine σ} (hm : Code.ofModule m = .ok machine.code)
    (hcount : m.instructionCount < 2 ^ 63) (entry : String) : machine.KeepsCalls entry := by
  obtain ⟨cpu, hentered, hreturns⟩ := entered_ok machine.stack
  have hsize : machine.code.cells.size < 2 ^ 63 := by rwa [Code.size_ofModule hm]
  cases hlabel : machine.code.labels.get? entry with
  | none =>
    have hrun : machine.run entry = (.error (.unknownFunction entry), machine) := by rw [run, hlabel]
    have hpoints : machine.visits entry = [] := by rw [visits, hlabel]
    have hfails : ¬ ∃ w, (machine.run entry).1 = .ok w := by
      rw [hrun]
      rintro ⟨w, hw⟩
      cases hw
    refine ⟨?_, fun hne => absurd hlabel hne, ⟨fun hw => absurd hw hfails, ?_⟩, fun hw => absurd hw hfails, ?_⟩ <;>
      rw [hpoints]
    · exact Nat.zero_le _
    · rintro ⟨k, p, hk, -⟩
      cases hk
    · nofun
  | some pc =>
    have hpoints : machine.visits entry = machine.code.visits machine.stepLimit ⟨pc, cpu, machine.host⟩ := by
      rw [visits, hlabel, hentered]
    have hresult : (machine.run entry).1 =
        (runFrom machine.code machine.stepLimit machine.stepLimit pc cpu machine.host).result := by
      rw [run, hlabel]
      dsimp only
      rw [hentered]
    have hsteps : (machine.run entry).2.steps =
        (runFrom machine.code machine.stepLimit machine.stepLimit pc cpu machine.host).steps := by
      rw [run, hlabel]
      dsimp only
      rw [hentered]
    have hstart : Point.Remembers ⟨pc, cpu, machine.host⟩ [] := ⟨hreturns, nofun⟩
    obtain ⟨hcounted, hends⟩ := runFrom_visits machine.code ⟨pc, cpu, machine.host⟩ (Nat.le_refl machine.stepLimit)
    dsimp only at hcounted hends
    rw [← hpoints] at hcounted hends
    rw [← hresult] at hends
    have hguarded : ∀ k p, (machine.visits entry)[k]? = some p →
        machine.code.Guarded (machine.run entry).1 (machine.code.pending ((machine.visits entry).take k)) p := by
      intro k p hk
      have hends := hends p (List.mem_of_getElem? hk)
      rw [hpoints] at hk ⊢
      exact (hstart.visits hsize hk).guarded hends
    refine ⟨?_, fun _ => ?_, ⟨?_, ?_⟩, ?_, hguarded⟩
    · rw [hpoints]
      exact machine.code.length_visits _ _
    · rw [hsteps, hcounted, Nat.sub_self, Nat.zero_add]
    · rintro ⟨w, hw⟩
      rw [hresult] at hw
      rw [hpoints]
      exact (hstart.ends hsize hw).1
    · rintro ⟨k, p, hk, hat, hpending, hfinds⟩
      exact ⟨_, (hguarded k p hk).halts hat hpending hfinds⟩
    · rintro ⟨w, hw⟩
      rw [hresult] at hw
      rw [hpoints, (hstart.ends hsize hw).2, List.length_nil, Nat.zero_add]

/-- Code with a function that overwrites the word for its return. -/
def overwriting : Module where
  blocks := [
    { name := "main", isGlobal := true, code := [⟨.call, ["f"], none⟩, ⟨.retq, [], none⟩] },
    { name := "f", code := [⟨.movq, ["$0", "(%rsp)"], none⟩, ⟨.retq, [], none⟩] }]

theorem Machine.keepsCalls_overwriting : ∃ machine : Machine Script,
    Code.ofModule overwriting = .ok machine.code ∧ overwriting.instructionCount < 2 ^ 63 ∧
      machine.KeepsCalls "main" := by
  have hdecodes : (Code.ofModule overwriting).isOk = true := by decide +kernel
  cases hcode : Code.ofModule overwriting with
  | error e =>
    rw [hcode] at hdecodes
    cases hdecodes
  | ok code =>
    have hcount : overwriting.instructionCount < 2 ^ 63 := by decide
    exact ⟨⟨code, .replicate stackWords 0, ⟨[], ""⟩, 100, 0⟩, rfl, hcount, keepsCalls hcode hcount "main"⟩

end Runs

end MicroC
