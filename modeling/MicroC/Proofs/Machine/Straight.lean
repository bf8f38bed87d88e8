import MicroC.Proofs.Machine.Effects
import MicroC.Proofs.Routine.Link

/-!
# Blocks without transfers of control

A block whose instructions all work on data is executed in order, wherever in the code it stands.

* `Straight`: no instruction of a block jumps, calls or returns.
* `Act.inOrder`: the instructions of a block, one after the other.
* **`inOrder_iff_runs`**: that is what a run does with the block.
-/

namespace MicroC

/-- No instruction jumps, calls or returns. -/
def Straight (code : List Instruction) : Prop := ∀ i ∈ code, i.opcode.transfersControl = false

instance (code : List Instruction) : Decidable (Straight code) := by
  unfold Straight
  infer_instance

namespace Straight

variable {i : Instruction} {code : List Instruction}

theorem head (h : Straight (i :: code)) : i.opcode.transfersControl = false := h i List.mem_cons_self

theorem tail (h : Straight (i :: code)) : Straight code := fun j hj => h j (List.mem_cons_of_mem _ hj)

theorem cons (hi : i.opcode.transfersControl = false) (h : Straight code) : Straight (i :: code) :=
  List.forall_mem_cons.2 ⟨hi, h⟩

end Straight

/-- Executes instructions on data, one after the other. -/
def Act.inOrder : List Instruction → Act Unit
  | [] => pure ()
  | i :: code => do
    i.act
    inOrder code

namespace Act

variable {i : Instruction} {code : List Instruction} {c d : Cpu}

@[simp] theorem inOrder_nil : inOrder [] c = .ok () d ↔ c = d := by
  refine ⟨fun h => ?_, fun h => h ▸ rfl⟩
  cases h
  rfl

theorem inOrder_cons : inOrder (i :: code) c = .ok () d ↔
    ∃ e, i.act c = .ok () e ∧ inOrder code e = .ok () d := by
  show (i.act >>= fun _ => inOrder code) c = _ ↔ _
  cases hi : i.act c with
  | ok a e =>
    rw [bind_of_ok hi]
    exact ⟨fun h => ⟨e, rfl, h⟩, fun ⟨e', he, h⟩ => by cases he; exact h⟩
  | error x e =>
    rw [bind_of_error hi]
    exact ⟨nofun, nofun⟩

theorem Parallel.inOrder {S : Register → Prop} (hs : Straight code)
    (hS : ∀ i ∈ code, ∀ r : Register, r.name ∈ i.reads → S r) : Parallel S S (inOrder code) := by
  induction code with
  | nil => exact .pure (fun _ => id) ()
  | cons i code ih =>
    obtain ⟨hi, hcode⟩ := List.forall_mem_cons.1 hS
    exact .bind (fun c d h a e hx => ((Instruction.parallel hs.head hi c d h a e hx).imp fun _ hy =>
      ⟨hy.1, hy.2.mono fun _ => .inl⟩)) fun _ => ih hs.tail hcode

end Act

/-! ## Runs -/

theorem decode_of_straight (hi : i.opcode.transfersControl = false) (table : Labels) :
    decode table i = (decodeArgs i.opcode i.operands).map (.data i.opcode) := by
  unfold decode
  rw [if_neg, if_neg]
  · intro ho
    rw [ho] at hi
    cases hi
  · cases ho : i.opcode <;> first | decide | (rw [ho] at hi; cases hi)

section

variable {σ : Type} [Host σ] {code : Code} {block : List Instruction} {cells : List Cell} {table : Labels}

/-- **What a run does with a block.** -/
theorem inOrder_iff_runs (hs : Straight block) (hdec : decodeAll table block = .ok cells) {pc : Nat}
    (hat : code.Has pc cells) {c d : Cpu} (host : σ) :
    Act.inOrder block c = .ok () d ↔
      code.Runs block.length ⟨pc, c, host⟩ ⟨pc + block.length, d, host⟩ := by
  induction block generalizing cells pc c with
  | nil =>
    rw [Act.inOrder_nil]
    exact ⟨fun h => h ▸ rfl, fun h => by cases h; rfl⟩
  | cons i block ih =>
    rw [decodeAll, decode_of_straight hs.head] at hdec
    cases hargs : decodeArgs i.opcode i.operands with
    | error e =>
      rw [hargs] at hdec
      cases hdec
    | ok args =>
      rw [hargs] at hdec
      cases hrest : decodeAll table block with
      | error e =>
        rw [hrest] at hdec
        cases hdec
      | ok rest =>
        rw [hrest] at hdec
        cases hdec
        have hact : i.act = Act.execute i.opcode args := by rw [Instruction.act, hargs]
        have hret : i.opcode ≠ .retq := fun ho => absurd hs.head (by rw [ho]; decide)
        have hnext := Point.next_of_data (p := ⟨pc, c, host⟩) hat.head hret
        rw [Act.inOrder_cons, hact]
        cases hx : Act.execute i.opcode args c with
        | error e c' =>
          rw [hx] at hnext
          refine ⟨nofun, ?_⟩
          rintro ⟨q, hq, -⟩
          rw [hnext] at hq
          cases hq
        | ok a c' =>
          rw [hx] at hnext
          have hgo := ih hs.tail hrest hat.tail (c := c')
          rw [List.length_cons, show pc + (block.length + 1) = pc + 1 + block.length by omega]
          constructor
          · rintro ⟨e, he, h⟩
            cases he
            exact ⟨_, hnext, hgo.1 h⟩
          · rintro ⟨q, hq, h⟩
            rw [hnext] at hq
            cases hq
            exact ⟨c', rfl, hgo.2 h⟩

end

end MicroC
