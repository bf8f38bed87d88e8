import MicroC.Machine.Code
import MicroC.Proofs.Machine.Address
import MicroC.Proofs.Routine.Step

/-!
# Routines in memory

Routines are laid out one behind the other. Each starts with the code that sets up its frame and ends with
the code that gives it up.

* `pcOf`: where a routine goes on with some of its items.
* `Code.Implements`: code that consists of routines.
* **`Code.Implements.cell_of_op`**, `cell_of_entry`, `cell_of_exit`: what stands at a place.
-/

namespace MicroC

open Convention

/-! ## Operands -/

/-- The operand that a source is. -/
def Src.arg : Src → Arg
  | .imm w => .immediate w
  | .reg r => .register r.register
  | .slot n => .memory (Int64.ofInt (slotOffset n)) .rbp
  | .param n => .memory (Int64.ofInt (paramOffset n)) .rbp

/-- The operands of an operation on data. -/
def Op.args : Op → List Arg
  | .push s _ => [s.arg]
  | .pop r => [.register r.register]
  | .move s r => [s.arg, .register r.register]
  | .store r n => [.register r.register, (Src.slot n).arg]
  | .peek r => [.memory 0 .rsp, .register r.register]
  | .combine _ s r => [s.arg, .register r.register]
  | .negate r => [.register r.register]
  | .extend => []
  | .divide r => [.register r.register]
  | .compare s r => [s.arg, .register r.register]
  | .select _ s r => [.register s.register, .register r.register]
  | .grow => [.immediate (Int64.ofInt wordSize), .register .rsp]
  | .shrink n => [.immediate (Int64.ofInt ((n + 1) * wordSize : Nat)), .register .rsp]
  | .nop | .jump .. | .exit | .call _ => []

/-! ## Places -/

/-- The number of instructions in front of a body. -/
def entryWidth : Nat := 8

/-- The number of instructions behind a body. -/
def exitWidth : Nat := 9

/-- The number of instructions of a routine. -/
def Subroutine.width (r : Subroutine) : Nat := entryWidth + MicroC.width r.body + exitWidth

/-- Where a routine starts. -/
def start : List Subroutine → String → Nat
  | [], _ => 0
  | r :: rs, f => if r.name = f then 0 else r.width + start rs f

/-- The number of instructions of all routines. -/
def programWidth : List Subroutine → Nat
  | [] => 0
  | r :: rs => r.width + programWidth rs

/-- Where a routine goes on with `k`, the last items of its body. -/
def pcOf (prog : List Subroutine) (r : Subroutine) (k : List Item) : Nat :=
  start prog r.name + entryWidth + (width r.body - width k)

/-! ## Cells -/

section Cells

variable (prog : List Subroutine) (r : Subroutine)

/-- The instruction of an operation. -/
def Op.cell (o : Op) : Cell :=
  match o with
  | .jump j l => .jump j.opcode [pcOf prog r ((behind l r.body).getD [])]
  | .exit => .jump .jmp [pcOf prog r []]
  | .call f =>
    .call [if (prog.find? (·.name == f)).isSome then .label f (start prog f) else .symbol f]
  | o => .data o.opcode o.args

theorem Op.cell_of_isData {o : Op} (h : o.isData = true) : o.cell prog r = .data o.opcode o.args := by
  cases o <;> first | rfl | cases h

/-- The instructions of items. -/
def itemCells : List Item → List Cell
  | [] => []
  | .label _ _ :: k => itemCells k
  | .op o :: k => o.cell prog r :: itemCells k

/-- Saves registers and sets up a frame. -/
def entryCells : List Cell :=
  [.data .pushq [.register .r15], .data .pushq [.register .r14], .data .pushq [.register .r13],
    .data .pushq [.register .r12], .data .pushq [.register .rbp], .data .pushq [.register .rbx],
    .data .pushq [.register .rbp], .data .movq [.register .rsp, .register .rbp]]

/-- Gives up a frame, restores registers and returns. -/
def exitCells : List Cell :=
  [.data .movq [.register .rbp, .register .rsp], .data .popq [.register .rbp],
    .data .popq [.register .rbx], .data .popq [.register .rbp], .data .popq [.register .r12],
    .data .popq [.register .r13], .data .popq [.register .r14], .data .popq [.register .r15],
    .data .retq []]

/-- The instructions of a routine. -/
def Subroutine.cells : List Cell := entryCells ++ itemCells prog r r.body ++ exitCells

@[simp] theorem length_itemCells (k : List Item) : (itemCells prog r k).length = width k := by
  induction k with
  | nil => rfl
  | cons i k ih => cases i <;> simp [itemCells, ih]

theorem itemCells_append (j k : List Item) :
    itemCells prog r (j ++ k) = itemCells prog r j ++ itemCells prog r k := by
  induction j with
  | nil => rfl
  | cons i j ih => cases i <;> simp [itemCells, ih]

theorem length_cells : (r.cells prog).length = r.width := by
  simp only [Subroutine.cells, List.length_append, length_itemCells, Subroutine.width]
  rfl

end Cells

/-- Code that consists of routines. -/
structure Code.Implements (code : Code) (prog : List Subroutine) : Prop where
  cells : code.cells = (prog.flatMap (Subroutine.cells prog)).toArray
  names : (prog.map Subroutine.name).Nodup
  labels : ∀ r ∈ prog, code.labels.get? r.name = some (start prog r.name)
  /-- Places are words. -/
  size : programWidth prog < 2 ^ 59
  arity : ∀ r ∈ prog, r.arity < 2 ^ 59

/-! ## What stands at a place -/

theorem getElem?_flatMap_start {f : Subroutine → List Cell} (hf : ∀ r, (f r).length = r.width)
    {rs : List Subroutine} (hn : (rs.map Subroutine.name).Nodup) {r : Subroutine} (hr : r ∈ rs) {i : Nat}
    (hi : i < r.width) : (rs.flatMap f)[start rs r.name + i]? = (f r)[i]? := by
  induction rs with
  | nil => cases hr
  | cons q rs ih =>
    rw [List.map_cons, List.nodup_cons] at hn
    rw [List.flatMap_cons, start]
    rcases List.mem_cons.1 hr with rfl | hr
    · rw [if_pos rfl, Nat.zero_add, List.getElem?_append_left (by rwa [hf])]
    · have hne : q.name ≠ r.name := fun h => hn.1 (h ▸ List.mem_map_of_mem hr)
      rw [if_neg hne, List.getElem?_append_right (by rw [hf]; omega), hf]
      have hshift : q.width + start rs r.name + i - q.width = start rs r.name + i := by omega
      rw [hshift]
      exact ih hn.2 hr

theorem start_add_width_le {rs : List Subroutine} {r : Subroutine} (hn : (rs.map Subroutine.name).Nodup)
    (hr : r ∈ rs) : start rs r.name + r.width ≤ programWidth rs := by
  induction rs with
  | nil => cases hr
  | cons q rs ih =>
    rw [List.map_cons, List.nodup_cons] at hn
    rw [start, programWidth]
    rcases List.mem_cons.1 hr with rfl | hr
    · rw [if_pos rfl]
      omega
    · have hne : q.name ≠ r.name := fun h => hn.1 (h ▸ List.mem_map_of_mem hr)
      rw [if_neg hne]
      have := ih hn.2 hr
      omega

theorem width_le_of_suffix {j k : List Item} (h : k <:+ j) : width k ≤ width j := by
  obtain ⟨i, rfl⟩ := h
  rw [width_append]
  omega

theorem behind_suffix {l : String} {j k : List Item} (h : behind l j = some k) : k <:+ j := by
  induction j with
  | nil => cases h
  | cons i j ih =>
    cases i with
    | op o => exact (ih h).trans (List.suffix_cons _ _)
    | label m ks =>
      rw [behind] at h
      by_cases hl : l = m
      · rw [if_pos hl] at h
        cases h
        exact List.suffix_cons _ _
      · rw [if_neg hl] at h
        exact (ih h).trans (List.suffix_cons _ _)

namespace Code.Implements

variable {code : Code} {prog : List Subroutine} {r : Subroutine} {i : Nat} {k : List Item} {o : Op}

theorem getElem?_cells (h : code.Implements prog) (hr : r ∈ prog) (hi : i < r.width) :
    code.cells[start prog r.name + i]? = (r.cells prog)[i]? := by
  rw [h.cells, List.getElem?_toArray]
  exact getElem?_flatMap_start (length_cells prog) h.names hr hi

theorem cell_of_entry (h : code.Implements prog) (hr : r ∈ prog) (hi : i < entryWidth) :
    code.cells[start prog r.name + i]? = entryCells[i]? := by
  rw [h.getElem?_cells hr (by simp only [Subroutine.width]; omega), Subroutine.cells, List.append_assoc]
  exact List.getElem?_append_left hi

theorem cell_of_exit (h : code.Implements prog) (hr : r ∈ prog) (hi : i < exitWidth) :
    code.cells[pcOf prog r [] + i]? = exitCells[i]? := by
  have hplace : pcOf prog r [] + i = start prog r.name + (entryWidth + width r.body + i) := by
    simp only [pcOf, width_nil]
    omega
  rw [hplace, h.getElem?_cells hr (by simp only [Subroutine.width]; omega), Subroutine.cells,
    List.getElem?_append_right (by simp [entryCells, entryWidth]; omega)]
  congr 1
  simp [entryCells, entryWidth]
  omega

/-- **The instruction of an operation is at its place.** -/
theorem cell_of_op (h : code.Implements prog) (hr : r ∈ prog) (hk : .op o :: k <:+ r.body) :
    code.cells[pcOf prog r (.op o :: k)]? = some (o.cell prog r) := by
  obtain ⟨j, hj⟩ := hk
  have hw : width r.body = width j + width k + 1 := by
    rw [← hj, width_append, width_op]
    omega
  have hplace : pcOf prog r (.op o :: k) = start prog r.name + (entryWidth + width j) := by
    simp only [pcOf, width_op]
    omega
  rw [hplace, h.getElem?_cells hr (by simp only [Subroutine.width]; omega), Subroutine.cells,
    List.getElem?_append_left (by simp [entryCells, entryWidth]; omega),
    List.getElem?_append_right (by simp [entryCells, entryWidth]), ← hj, itemCells_append,
    List.getElem?_append_right (by simp [entryCells, entryWidth])]
  simp [entryCells, entryWidth, itemCells]

theorem place_lt (h : code.Implements prog) (hr : r ∈ prog) (k : List Item) :
    pcOf prog r k < 2 ^ 59 := by
  have hs := start_add_width_le h.names hr
  have hsize := h.size
  simp only [pcOf, Subroutine.width, exitWidth] at *
  omega

end Code.Implements

theorem place_succ {prog : List Subroutine} {r : Subroutine} {o : Op} {k : List Item}
    (hk : .op o :: k <:+ r.body) : pcOf prog r (.op o :: k) + 1 = pcOf prog r k := by
  have := width_le_of_suffix hk
  rw [width_op] at this
  simp only [pcOf, width_op]
  omega

theorem place_label (prog : List Subroutine) (r : Subroutine) (l : String) (ks : List Kind) (k : List Item) :
    pcOf prog r (.label l ks :: k) = pcOf prog r k := by
  simp only [pcOf, width_label]

theorem place_body (prog : List Subroutine) (r : Subroutine) :
    pcOf prog r r.body = start prog r.name + entryWidth := by
  simp only [pcOf, Nat.sub_self, Nat.add_zero]

end MicroC
