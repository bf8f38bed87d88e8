import MicroC.Machine.Run

/-!
# Runs step by step

A run is a chain of points, each with the place of an instruction, the processor and the host. A limit on
the number of steps only cuts the chain, so what a run comes to is told by where its chain ends.

* `Point.next`: the point behind one instruction, or how the run ends there.
* `Code.Runs`, `Code.Halts`: a number of steps to another point, or to an end.
* `Code.first?`: the first point with a property.
* **`runFrom_of_runs`**, **`runFrom_of_halts`**: what a run with a limit comes to.
-/

namespace MicroC

variable {σ : Type} [Runtime σ]

/-- A place in a run. -/
structure Point (σ : Type) where
  pc : Nat
  cpu : Cpu
  host : σ

/-- How a run ends. -/
structure Halt (σ : Type) where
  result : Except MachineError Int64
  cpu : Cpu
  host : σ

theorem step_of_data {opcode : Opcode} (ho : opcode ≠ .retq) (pc : Nat) (args : List Arg) (cpu : Cpu) (host : σ) :
    step pc (.data opcode args) cpu host = Act.step (do Act.execute opcode args; return .advance) cpu host := by
  cases opcode <;> first | rfl | exact absurd rfl ho

/-- The point behind one instruction, or the end of the run. -/
def Point.next (code : Code) (p : Point σ) : Except (Halt σ) (Point σ) :=
  match code.cells[p.pc]? with
  | none => .error ⟨.error .ranOffEnd, p.cpu, p.host⟩
  | some cell =>
    match step p.pc cell p.cpu p.host with
    | ⟨.error e, cpu, host⟩ => .error ⟨.error e, cpu, host⟩
    | ⟨.ok .advance, cpu, host⟩ => .ok ⟨p.pc + 1, cpu, host⟩
    | ⟨.ok (.goto pc), cpu, host⟩ => .ok ⟨pc, cpu, host⟩
    | ⟨.ok (.halt w), cpu, host⟩ => .error ⟨.ok w, cpu, host⟩

/-- What follows from a step. -/
def Stepped.after (pc : Nat) : Stepped σ → Except (Halt σ) (Point σ)
  | ⟨.error e, cpu, host⟩ => .error ⟨.error e, cpu, host⟩
  | ⟨.ok .advance, cpu, host⟩ => .ok ⟨pc + 1, cpu, host⟩
  | ⟨.ok (.goto pc), cpu, host⟩ => .ok ⟨pc, cpu, host⟩
  | ⟨.ok (.halt w), cpu, host⟩ => .error ⟨.ok w, cpu, host⟩

theorem Point.next_of_cell {code : Code} {p : Point σ} {cell : Cell} (hcell : code.cells[p.pc]? = some cell) :
    p.next code = (step p.pc cell p.cpu p.host).after p.pc := by
  rw [Point.next, hcell]
  dsimp only
  rcases step p.pc cell p.cpu p.host with ⟨e | n, cpu, host⟩
  · rfl
  · cases n <;> rfl

namespace Code

/-- A number of steps lead from one point to another. -/
def Runs (code : Code) : Nat → Point σ → Point σ → Prop
  | 0, p, q => p = q
  | n + 1, p, q => ∃ r, p.next code = .ok r ∧ Runs code n r q

/-- The run ends with the last of a number of steps. -/
def Halts (code : Code) : Nat → Point σ → Halt σ → Prop
  | 0, _, _ => False
  | n + 1, p, f => p.next code = .error f ∧ n = 0 ∨ ∃ r, p.next code = .ok r ∧ Halts code n r f

variable {code : Code} {p q r : Point σ} {f : Halt σ} {m n : Nat}

theorem Runs.refl (p : Point σ) : code.Runs 0 p p := rfl

theorem Runs.one (h : p.next code = .ok q) : code.Runs 1 p q := ⟨q, h, rfl⟩

theorem Halts.one (h : p.next code = .error f) : code.Halts 1 p f := .inl ⟨h, rfl⟩

theorem Halts.pos (h : code.Halts n p f) : 0 < n := by
  cases n with
  | zero => exact h.elim
  | succ n => exact n.succ_pos

theorem Runs.trans (h : code.Runs m p q) (h' : code.Runs n q r) : code.Runs (m + n) p r := by
  induction m generalizing p with
  | zero =>
    rw [Nat.zero_add, show p = q from h]
    exact h'
  | succ m ih =>
    obtain ⟨x, hx, hr⟩ := h
    rw [Nat.succ_add]
    exact ⟨x, hx, ih hr⟩

theorem Runs.halts (h : code.Runs m p q) (h' : code.Halts n q f) : code.Halts (m + n) p f := by
  induction m generalizing p with
  | zero =>
    rw [Nat.zero_add, show p = q from h]
    exact h'
  | succ m ih =>
    obtain ⟨x, hx, hr⟩ := h
    rw [Nat.succ_add]
    exact .inr ⟨x, hx, ih hr⟩

theorem Runs.take (h : code.Runs n p q) (hm : m ≤ n) : ∃ r, code.Runs m p r := by
  induction m generalizing n p with
  | zero => exact ⟨p, rfl⟩
  | succ m ih =>
    cases n with
    | zero => omega
    | succ n =>
      obtain ⟨x, hx, hr⟩ := h
      obtain ⟨y, hy⟩ := ih hr (by omega)
      exact ⟨y, x, hx, hy⟩

theorem Runs.after (h : code.Runs n p q) (hr : code.Runs m p r) (hm : m ≤ n) : code.Runs (n - m) r q := by
  induction m generalizing n p with
  | zero =>
    rw [Nat.sub_zero, ← show p = r from hr]
    exact h
  | succ m ih =>
    cases n with
    | zero => omega
    | succ n =>
      obtain ⟨x, hx, hq⟩ := h
      obtain ⟨y, hy, hr⟩ := hr
      rw [hx] at hy
      cases hy
      rw [Nat.succ_sub_succ]
      exact ih hq hr (by omega)

theorem Halts.after (h : code.Halts n p f) (hr : code.Runs m p q) :
    m < n ∧ code.Halts (n - m) q f := by
  induction m generalizing n p with
  | zero =>
    rw [← show p = q from hr]
    cases n with
    | zero => exact h.elim
    | succ n => exact ⟨by omega, h⟩
  | succ m ih =>
    obtain ⟨x, hx, hr⟩ := hr
    cases n with
    | zero => exact h.elim
    | succ n =>
      rcases h with ⟨he, -⟩ | ⟨y, hy, hh⟩
      · rw [hx] at he
        cases he
      · rw [hx] at hy
        cases hy
        obtain ⟨hlt, hh⟩ := ih hh hr
        rw [Nat.succ_sub_succ]
        exact ⟨by omega, hh⟩

theorem Halts.unique {g : Halt σ} (h : code.Halts n p f) (h' : code.Halts m p g) : n = m ∧ f = g := by
  induction n generalizing m p with
  | zero => exact h.elim
  | succ n ih =>
    cases m with
    | zero => exact h'.elim
    | succ m =>
      rcases h with ⟨he, rfl⟩ | ⟨x, hx, hh⟩ <;> rcases h' with ⟨he', rfl⟩ | ⟨y, hy, hh'⟩
      · rw [he] at he'
        cases he'
        exact ⟨rfl, rfl⟩
      · rw [he] at hy
        cases hy
      · rw [hx] at he'
        cases he'
      · rw [hx] at hy
        cases hy
        obtain ⟨rfl, rfl⟩ := ih hh hh'
        exact ⟨rfl, rfl⟩

/-- Behind any number of steps a run goes on or has ended. -/
theorem runs_or_halts (code : Code) (n : Nat) (p : Point σ) :
    (∃ q, code.Runs n p q) ∨ ∃ m f, m ≤ n ∧ code.Halts m p f := by
  induction n generalizing p with
  | zero => exact .inl ⟨p, rfl⟩
  | succ n ih =>
    cases hp : p.next code with
    | error f => exact .inr ⟨1, f, by omega, .one hp⟩
    | ok x =>
      rcases ih x with ⟨q, hq⟩ | ⟨m, f, hm, hf⟩
      · exact .inl ⟨q, x, hp, hq⟩
      · exact .inr ⟨m + 1, f, by omega, .inr ⟨x, hp, hf⟩⟩

/-- The first point of a run that has a property, if there is one within so many steps. -/
def first? (code : Code) (stop : Point σ → Bool) : Nat → Point σ → Option (Point σ)
  | 0, _ => none
  | n + 1, p =>
    if stop p then some p
    else
      match p.next code with
      | .ok q => code.first? stop n q
      | .error _ => none

theorem first?_eq_some {stop : Point σ → Bool} (h : code.first? stop n p = some q) :
    stop q = true ∧ ∃ m, code.Runs m p q ∧ ∀ i < m, ∀ w, code.Runs i p w → stop w = false := by
  induction n generalizing p with
  | zero => cases h
  | succ n ih =>
    rw [first?] at h
    split at h
    · next hstop =>
      cases h
      exact ⟨hstop, 0, rfl, fun i hi => absurd hi (Nat.not_lt_zero i)⟩
    · next hstop =>
      split at h
      · next x hx =>
        obtain ⟨hq, m, hm, hbefore⟩ := ih h
        refine ⟨hq, m + 1, ⟨x, hx, hm⟩, fun i hi w hw => ?_⟩
        cases i with
        | zero => exact (show p = w from hw) ▸ Bool.not_eq_true _ ▸ hstop
        | succ i =>
          obtain ⟨y, hy, hw⟩ := hw
          rw [hx] at hy
          cases hy
          exact hbefore i (Nat.lt_of_succ_lt_succ hi) w hw
      · cases h

end Code

open Code

variable {code : Code} {p q : Point σ} {f : Halt σ} {n left limit : Nat}

theorem runFrom_succ (limit left : Nat) (p : Point σ) :
    runFrom code limit (left + 1) p.pc p.cpu p.host =
      match p.next code with
      | .error f => ⟨f.result, f.cpu, f.host, limit - left⟩
      | .ok q => runFrom code limit left q.pc q.cpu q.host := by
  rw [runFrom, Point.next]
  cases code.cells[p.pc]? with
  | none => rfl
  | some cell =>
    dsimp only
    rcases step p.pc cell p.cpu p.host with ⟨e | n, cpu, host⟩
    · rfl
    · cases n <;> rfl

/-- **A run that outlasts its steps is cut off.** -/
theorem runFrom_of_runs (h : code.Runs left p q) :
    runFrom code limit left p.pc p.cpu p.host =
      ⟨.error (.stepLimitExceeded limit), q.cpu, q.host, limit⟩ := by
  induction left generalizing p with
  | zero =>
    rw [show p = q from h]
    rfl
  | succ left ih =>
    obtain ⟨x, hx, hr⟩ := h
    rw [runFrom_succ, hx]
    exact ih hr

/-- **A run that ends within its steps ends as it would without a limit.** -/
theorem runFrom_of_halts (h : code.Halts n p f) (hn : n ≤ left) (hl : left ≤ limit) :
    runFrom code limit left p.pc p.cpu p.host = ⟨f.result, f.cpu, f.host, limit - left + n⟩ := by
  induction n generalizing p left with
  | zero => exact h.elim
  | succ n ih =>
    obtain ⟨left, rfl⟩ : ∃ l, left = l + 1 := ⟨left - 1, by omega⟩
    rw [runFrom_succ]
    rcases h with ⟨hp, rfl⟩ | ⟨x, hx, hr⟩
    · rw [hp]
      have hsteps : limit - left = limit - (left + 1) + (0 + 1) := by omega
      rw [← hsteps]
    · rw [hx]
      have hsteps : limit - left + n = limit - (left + 1) + (n + 1) := by omega
      rw [← hsteps]
      exact ih hr (by omega) (by omega)

end MicroC
