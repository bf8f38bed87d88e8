import MicroC.Proofs.Machine.Trace

/-!
# Runs with other hosts

What a run does depends on its host by what it reads only. So a map of hosts that commutes with reading and
printing commutes with runs, and output that is there already changes nothing.

* `Host.Maps`: maps of hosts that commute with reading and printing.
* `step_map`, `runFrom_map`: such a map commutes with steps, and with runs.
* **`Machine.run_map`**: the same for machines.
* `Script.behind`: output that is there already.
-/

namespace MicroC

variable {σ τ : Type}

/-- A map of hosts that commutes with reading and printing. -/
structure Host.Maps [Host σ] [Host τ] (φ : σ → τ) : Prop where
  print : ∀ text s, Host.print text (φ s) = φ (Host.print text s)
  read : ∀ s, Host.read (φ s) = ((Host.read s).1, φ (Host.read s).2)

/-- A step whose host is mapped. -/
def Stepped.map (φ : σ → τ) (s : Stepped σ) : Stepped τ := ⟨s.next, s.cpu, φ s.host⟩

/-- A run whose host is mapped. -/
def Finished.map (φ : σ → τ) (f : Finished σ) : Finished τ := ⟨f.result, f.cpu, φ f.host, f.steps⟩

/-- A machine whose host is mapped. -/
def Machine.map (φ : σ → τ) (m : Machine σ) : Machine τ := ⟨m.code, m.stack, φ m.host, m.stepLimit, m.steps⟩

variable [Host σ] [Host τ] {φ : σ → τ}

theorem Intrinsic.call_map (hφ : Host.Maps φ) (i : Intrinsic) (args : List Int64) (host : σ) :
    i.call args (φ host) = ((i.call args host).1, φ (i.call args host).2) := by
  cases i with
  | print => exact congrArg (Prod.mk _) (hφ.print _ _)
  | read => exact hφ.read host
  | print8 => exact congrArg (Prod.mk _) (hφ.print _ _)
  | sum8 => rfl

theorem Intrinsic.callNamed_map (hφ : Host.Maps φ) (name : String) (args : List Int64) (host : σ) :
    callNamed name args (φ host) = ((callNamed name args host).1, φ (callNamed name args host).2) := by
  unfold callNamed
  cases ofName? name with
  | none => rfl
  | some i => exact i.call_map hφ args host

theorem callHost_map (hφ : Host.Maps φ) (name : String) (cpu : Cpu) (host : σ) :
    callHost name cpu (φ host) = (callHost name cpu host).map φ := by
  unfold callHost
  rw [show Runtime.arity name (φ host) = Runtime.arity name host from rfl]
  cases Act.prepare name (Runtime.arity name host) cpu with
  | error e cpu => rfl
  | ok args cpu =>
    have hcall : Runtime.call name args (φ host) = _ := Intrinsic.callNamed_map hφ name args host
    dsimp only
    rw [hcall, show Runtime.call name args host = Intrinsic.callNamed name args host from rfl]
    rcases Intrinsic.callNamed name args host with ⟨e | w, host⟩ <;> rfl

omit [Host σ] [Host τ] in
theorem Act.step_map (φ : σ → τ) (act : Act Next) (cpu : Cpu) (host : σ) :
    act.step cpu (φ host) = (act.step cpu host).map φ := by
  unfold Act.step
  cases act cpu <;> rfl

/-- A step reads and prints like the step it is mapped from. -/
theorem step_map (hφ : Host.Maps φ) (pc : Nat) (cell : Cell) (cpu : Cpu) (host : σ) :
    step pc cell cpu (φ host) = (step pc cell cpu host).map φ := by
  cases cell with
  | data opcode args =>
    by_cases ho : opcode = .retq
    · subst ho
      exact Act.step_map φ _ _ _
    · rw [step_of_data ho, step_of_data ho]
      exact Act.step_map φ _ _ _
  | jump opcode targets => exact Act.step_map φ _ _ _
  | call targets =>
    cases targets with
    | nil => exact Act.step_map φ (throw _) _ _
    | cons t targets =>
      cases t with
      | label name address => exact Act.step_map φ _ _ _
      | symbol name => exact callHost_map hφ name cpu host

theorem runFrom_map (hφ : Host.Maps φ) (code : Code) (limit left pc : Nat) (cpu : Cpu) (host : σ) :
    runFrom code limit left pc cpu (φ host) = (runFrom code limit left pc cpu host).map φ := by
  induction left generalizing pc cpu host with
  | zero => rfl
  | succ left ih =>
    rw [runFrom, runFrom]
    cases code.cells[pc]? with
    | none => rfl
    | some cell =>
      dsimp only
      rw [step_map hφ]
      rcases step pc cell cpu host with ⟨e | n, cpu', host'⟩
      · rfl
      · cases n with
        | advance => exact ih (pc + 1) cpu' host'
        | goto pc' => exact ih pc' cpu' host'
        | halt w => rfl

/-- **A run reads and prints like the run it is mapped from.** -/
theorem Machine.run_map (hφ : Host.Maps φ) (m : Machine σ) (entry : String) :
    (m.map φ).run entry = ((m.run entry).1, (m.run entry).2.map φ) := by
  unfold Machine.run
  rw [show (m.map φ).code = m.code from rfl]
  cases m.code.labels.get? entry with
  | none => rfl
  | some pc =>
    dsimp only
    rw [show (m.map φ).stack = m.stack from rfl]
    rcases Machine.entered m.stack with ⟨e | _, cpu⟩
    · rfl
    · dsimp only
      rw [show (m.map φ).host = φ m.host from rfl, show (m.map φ).stepLimit = m.stepLimit from rfl,
        runFrom_map hφ]
      rfl

/-- Puts some output in front of the output of a script. -/
def Script.behind (text : String) (s : Script) : Script := ⟨s.input, text ++ s.output⟩

/-- Output that is there already changes nothing. -/
theorem Script.maps_behind (text : String) : Host.Maps (Script.behind text) where
  print t s := by
    show (⟨s.input, text ++ s.output ++ t⟩ : Script) = ⟨s.input, text ++ (s.output ++ t)⟩
    rw [String.append_assoc]
  read s := by
    obtain ⟨input, output⟩ := s
    cases input <;> rfl

end MicroC
