import MicroC.Proofs.Machine.Trace
import MicroC.Proofs.Routine.Execute

/-!
# Entering and leaving routines

The code in front of a body saves what a caller needs and sets up a frame; the code behind it undoes this.
Between the two a return address lies under the saved words.

* `runs_pushes`, `runs_pops`: saving and restoring a list of registers.
* `Linked`: callers that wait for each other.
* **`Mirrors.enter`**: setting up a frame puts the caller aside.
* **`Mirrors.leave_back`**, `Mirrors.leave_halt`: giving it up takes the caller back, or ends the run.
-/

namespace MicroC

open Convention Code

variable {σ : Type} [Host σ] {code : Code}

/-! ## Instructions on data in a run -/

theorem Point.next_of_data {p : Point σ} {opcode : Opcode} {args : List Arg}
    (hcell : code.cells[p.pc]? = some (.data opcode args)) (ho : opcode ≠ .retq) :
    p.next code =
      match Act.execute opcode args p.cpu with
      | .ok () d => .ok ⟨p.pc + 1, d, p.host⟩
      | .error e d => .error ⟨.error e, d, p.host⟩ := by
  rw [Point.next_of_cell hcell, step_of_data ho, Act.step]
  cases hact : Act.execute opcode args p.cpu with
  | ok u d =>
    rw [Act.bind_of_ok hact]
    rfl
  | error e d =>
    rw [Act.bind_of_error hact]
    rfl

/-- These instructions stand at a place. -/
def Code.Has (code : Code) (pc : Nat) (cells : List Cell) : Prop :=
  ∀ i x, cells[i]? = some x → code.cells[pc + i]? = some x

variable {pc : Nat} {c : Cpu} {ws : List (Option Int64)}

theorem Code.Has.head {x : Cell} {xs : List Cell} (h : code.Has pc (x :: xs)) :
    code.cells[pc]? = some x := h 0 x rfl

theorem Code.Has.tail {x : Cell} {xs : List Cell} (h : code.Has pc (x :: xs)) : code.Has (pc + 1) xs := by
  intro i y hi
  rw [show pc + 1 + i = pc + (i + 1) by omega]
  exact h (i + 1) y hi

theorem Code.Has.right {xs ys : List Cell} (h : code.Has pc (xs ++ ys)) :
    code.Has (pc + xs.length) ys := by
  intro i y hi
  rw [Nat.add_assoc]
  refine h _ y ?_
  rw [List.getElem?_append_right (by omega), Nat.add_sub_cancel_left, hi]

theorem Code.Has.left {xs ys : List Cell} (h : code.Has pc (xs ++ ys)) : code.Has pc xs := by
  intro i x hi
  refine h i x ?_
  obtain ⟨hlt, -⟩ := List.getElem?_eq_some_iff.1 hi
  rw [List.getElem?_append_left hlt, hi]

/-- Puts a register on the stack. -/
def pushCell (r : Register) : Cell := .data .pushq [.register r]

/-- Takes a register off the stack. -/
def popCell (r : Register) : Cell := .data .popq [.register r]

theorem runs_pushes (rs : List Register) (hrs : ∀ r ∈ rs, r ≠ .rsp)
    (hcells : code.Has pc (rs.map pushCell))
    (h : c.Holds ws) (hroom : ws.length + rs.length ≤ stackWords) (host : σ) :
    ∃ d, code.Runs rs.length ⟨pc, c, host⟩ ⟨pc + rs.length, d, host⟩ ∧
      d.Holds (rs.reverse.map (fun r => some (c.get r)) ++ ws) ∧ c.Alike d := by
  induction rs generalizing pc c ws with
  | nil => exact ⟨c, rfl, h, .refl c⟩
  | cons r rs ih =>
    rw [List.length_cons] at hroom
    obtain ⟨d, hd, hholds, halike⟩ := Act.push_of_lt h (by omega) (c.get r)
    have hnext : (⟨pc, c, host⟩ : Point σ).next code = .ok ⟨pc + 1, d, host⟩ := by
      rw [Point.next_of_data hcells.head (by decide),
        show Act.execute .pushq [.register r] c = .ok () d from hd]
    obtain ⟨e, he, hholds', halike'⟩ := ih (fun q hq => hrs q (List.mem_cons_of_mem _ hq))
      hcells.tail hholds (by rw [List.length_cons]; omega)
    refine ⟨e, ?_, ?_, halike.trans halike'⟩
    · rw [List.length_cons, show pc + (rs.length + 1) = pc + 1 + rs.length by omega]
      exact ⟨_, hnext, he⟩
    · have hmap : rs.reverse.map (fun q => some (d.get q)) = rs.reverse.map (fun q => some (c.get q)) :=
        List.map_congr_left fun q hq => by
          rw [halike.reg q (hrs q (List.mem_cons_of_mem _ (List.mem_reverse.1 hq)))]
      rw [hmap] at hholds'
      rw [List.reverse_cons, List.map_append, List.append_assoc]
      exact hholds'

/-- Pushing registers without room for all of them: the first one that finds no room fails. -/
theorem halts_pushes (rs : List Register)
    (hcells : code.Has pc (rs.map pushCell))
    (h : c.Holds ws) (hws : ws.length ≤ stackWords) (hroom : stackWords < ws.length + rs.length)
    (host : σ) :
    ∃ d, code.Halts (stackWords - ws.length + 1) ⟨pc, c, host⟩ ⟨.error .stackOverflow, d, host⟩ := by
  induction rs generalizing pc c ws with
  | nil =>
    simp only [List.length_nil] at hroom
    omega
  | cons r rs ih =>
    rw [List.length_cons] at hroom
    by_cases hfull : ws.length = stackWords
    · have hpush : Act.execute .pushq [.register r] c = .error .stackOverflow c := by
        rw [← overflowError_of_le (k := ws.length) (by omega)]
        exact Act.push_of_ge h (by omega) (by rw [hfull]; decide) (c.get r)
      refine ⟨c, ?_⟩
      rw [hfull, Nat.sub_self]
      refine .one ?_
      rw [Point.next_of_data hcells.head (by decide), hpush]
    · obtain ⟨d, hd, hholds, -⟩ := Act.push_of_lt h (by omega) (c.get r)
      have hnext : (⟨pc, c, host⟩ : Point σ).next code = .ok ⟨pc + 1, d, host⟩ := by
        rw [Point.next_of_data hcells.head (by decide),
          show Act.execute .pushq [.register r] c = .ok () d from hd]
      obtain ⟨e, he⟩ := ih hcells.tail hholds (by rw [List.length_cons]; omega)
        (by rw [List.length_cons]; omega)
      have hcount : stackWords - ws.length + 1 = (stackWords - (some (c.get r) :: ws).length + 1) + 1 := by
        rw [List.length_cons]
        omega
      rw [hcount]
      exact ⟨e, .inr ⟨_, hnext, he⟩⟩

/-- The registers behind pops. -/
def popped : List Register → List Int64 → (Register → Int64) → Register → Int64
  | r :: rs, v :: vs, f => popped rs vs fun q => if q = r then v else f q
  | _, _, f => f

theorem popped_congr (rs : List Register) (vs : List Int64) {f g : Register → Int64} {q : Register}
    (h : ∀ r, r ≠ .rsp → f r = g r) (hq : q ≠ .rsp) : popped rs vs f q = popped rs vs g q := by
  induction rs generalizing vs f g with
  | nil => exact h q hq
  | cons r rs ih =>
    cases vs with
    | nil => exact h q hq
    | cons v vs =>
      refine ih vs fun x hx => ?_
      by_cases hxr : x = r
      · rw [if_pos hxr, if_pos hxr]
      · rw [if_neg hxr, if_neg hxr, h x hx]

theorem runs_pops (rs : List Register) (hrs : ∀ r ∈ rs, r ≠ .rsp) (vs : List Int64)
    (hlen : vs.length = rs.length)
    (hcells : code.Has pc (rs.map popCell))
    (h : c.Holds (vs.map some ++ ws)) (host : σ) :
    ∃ d, code.Runs rs.length ⟨pc, c, host⟩ ⟨pc + rs.length, d, host⟩ ∧ d.Holds ws ∧
      (∀ q, q ≠ .rsp → d.get q = popped rs vs c.get q) ∧ d.flags = c.flags ∧ d.returns = c.returns := by
  induction rs generalizing pc c vs with
  | nil =>
    cases vs with
    | nil => exact ⟨c, rfl, h, fun _ _ => rfl, rfl, rfl⟩
    | cons => simp at hlen
  | cons r rs ih =>
    cases vs with
    | nil => simp at hlen
    | cons v vs =>
      have hr := hrs r (List.mem_cons_self)
      obtain ⟨d, hd, hholds, halike⟩ := Act.pop_of_holds h
      have hexec : Act.execute .popq [.register r] c = .ok () (d.set r v) := by
        show (Act.pop >>= _) c = _
        rw [Act.bind_of_ok hd]
        rfl
      have hnext : (⟨pc, c, host⟩ : Point σ).next code = .ok ⟨pc + 1, d.set r v, host⟩ := by
        rw [Point.next_of_data hcells.head (by decide), hexec]
      obtain ⟨e, he, hholds', hregs, hflags, hreturns⟩ :=
        ih (fun q hq => hrs q (List.mem_cons_of_mem _ hq)) vs (by simpa using hlen) hcells.tail
          (hholds.set hr v)
      refine ⟨e, ?_, hholds', fun q hq => ?_, hflags.trans halike.flags, hreturns.trans halike.returns⟩
      · rw [List.length_cons, show pc + (rs.length + 1) = pc + 1 + rs.length by omega]
        exact ⟨_, hnext, he⟩
      · rw [hregs q hq, popped]
        refine popped_congr rs vs (fun x hx => ?_) hq
        by_cases hxr : x = r
        · rw [if_pos hxr, hxr, Cpu.get_set_self]
        · rw [if_neg hxr, Cpu.get_set_of_ne _ hxr, halike.reg x hx]

/-! ## Callers -/

/-- Callers that wait for each other; the run ends behind the last one. Each made its call with an even
number of words in its frame. -/
inductive Linked (prog : List Subroutine) : List Caller → Prop
  | outermost (regs : Reg → Int64) : Linked prog [⟨none, regs, []⟩]
  | call {r : Subroutine} {k : List Item} {regs : Reg → Int64} {ws : List (Option Int64)}
      {cs : List Caller} (hr : r ∈ prog) (hk : k <:+ r.body) (hw : ws.length % 2 = 0)
      (h : Linked prog cs) : Linked prog (⟨some (r, k), regs, ws⟩ :: cs)

variable {prog : List Subroutine} {s : State} {r : Subroutine}

theorem Linked.even {cs : List Caller} (h : Linked prog cs) : contextDepth cs % 2 = 0 := by
  induction h with
  | outermost regs => simp [contextDepth, linkWords]
  | call hr hk hw h ih =>
    simp only [contextDepth, linkWords]
    omega

theorem Linked.ne_nil {cs : List Caller} (h : Linked prog cs) : cs ≠ [] := by
  cases h <;> simp

theorem Linked.outermost_of_none {a : Caller} {cs : List Caller} (h : Linked prog (a :: cs))
    (ha : a.back = none) : a.words = [] ∧ cs = [] := by
  cases h with
  | outermost regs => exact ⟨rfl, rfl⟩
  | call hr hk hw h => cases ha

theorem Code.Implements.has_entry (h : code.Implements prog) (hr : r ∈ prog) :
    code.Has (start prog r.name) entryCells := by
  intro i x hi
  obtain ⟨hlt, -⟩ := List.getElem?_eq_some_iff.1 hi
  rw [h.cell_of_entry hr hlt, hi]

theorem Code.Implements.has_exit (h : code.Implements prog) (hr : r ∈ prog) :
    code.Has (pcOf prog r []) exitCells := by
  intro i x hi
  obtain ⟨hlt, -⟩ := List.getElem?_eq_some_iff.1 hi
  rw [h.cell_of_exit hr hlt, hi]

/-! ## Setting up a frame -/

/-- A processor at the start of a routine, with the return address on the stack. -/
structure Entering (prog : List Subroutine) (a : Caller) (cs : List Caller)
    (flags : Option (Int64 × Int64)) (c : Cpu) : Prop where
  reg : ∀ q : Reg, c.get q.register = a.regs q
  rbp : c.get .rbp = frameAddress cs
  holds : c.Holds (some (a.address prog) :: (a.words ++ context prog cs))
  flags : c.flags = flags
  returns : c.returns = (a :: cs).map (Caller.address prog)

variable {a : Caller} {cs : List Caller} {flags : Option (Int64 × Int64)}

/-- The registers that are saved, in this order. -/
def savedRegisters : List Register := [.r15, .r14, .r13, .r12, .rbp, .rbx, .rbp]

theorem entryCells_eq :
    entryCells = savedRegisters.map pushCell ++ [.data .movq [.register .rsp, .register .rbp]] := rfl

theorem Entering.saved (h : Entering prog a cs flags c) :
    savedRegisters.reverse.map (fun q => some (c.get q)) ++
        some (a.address prog) :: (a.words ++ context prog cs) = context prog (a :: cs) := by
  simp only [savedRegisters, List.reverse_cons, List.reverse_nil, List.nil_append, List.cons_append,
    List.map_cons, List.map_nil, context, link, h.rbp]
  rw [show c.get .rbx = a.regs .rbx from h.reg .rbx, show c.get .r12 = a.regs .r12 from h.reg .r12,
    show c.get .r13 = a.regs .r13 from h.reg .r13, show c.get .r14 = a.regs .r14 from h.reg .r14,
    show c.get .r15 = a.regs .r15 from h.reg .r15]

theorem Entering.length (a : Caller) (cs : List Caller) :
    (some (a.address prog) :: (a.words ++ context prog cs)).length + savedRegisters.length =
      contextDepth (a :: cs) := by
  simp only [List.length_cons, List.length_append, length_context, contextDepth, linkWords,
    savedRegisters, List.length_nil]
  omega

/-- **Setting up a frame puts the caller aside.** -/
theorem Entering.enter (himp : code.Implements prog) (hr : r ∈ prog) (h : Entering prog a cs flags c)
    (hroom : contextDepth (a :: cs) ≤ stackWords) (host : σ) :
    ∃ d, code.Runs entryWidth ⟨start prog r.name, c, host⟩ ⟨pcOf prog r r.body, d, host⟩ ∧
      Mirrors prog (entryState r a cs flags) d := by
  have hcells := himp.has_entry hr
  rw [entryCells_eq] at hcells
  obtain ⟨d, hd, hholds, halike⟩ := runs_pushes savedRegisters (by decide) hcells.left h.holds
    (by rwa [Entering.length]) host
  rw [h.saved] at hholds
  -- The last instruction sets the frame pointer.
  have hmove : Act.execute .movq [.register .rsp, .register .rbp] d = .ok () (d.set .rbp (d.get .rsp)) :=
    rfl
  have hnext : (⟨start prog r.name + savedRegisters.length, d, host⟩ : Point σ).next code =
      .ok ⟨pcOf prog r r.body, d.set .rbp (d.get .rsp), host⟩ := by
    rw [Point.next_of_data hcells.right.head (by decide), hmove, place_body]
    rfl
  refine ⟨_, hd.trans (.one hnext), ⟨fun q => ?_, ?_, hholds.set (by decide) _, ?_, ?_⟩⟩
  · rw [Cpu.get_set_of_ne _ q.ne_rbp, halike.reg _ q.ne_rsp]
    exact h.reg q
  · rw [Cpu.get_set_self, hholds.rsp, length_context]
    rfl
  · exact halike.flags.trans h.flags
  · exact halike.returns.trans h.returns

/-- Without room for a frame the stack runs over, where it is full. -/
theorem Entering.overflow (himp : code.Implements prog) (hr : r ∈ prog) (h : Entering prog a cs flags c)
    (hlen : (a.words ++ context prog cs).length < stackWords)
    (hroom : stackWords < contextDepth (a :: cs)) (host : σ) :
    ∃ d, code.Halts (stackWords - (a.words ++ context prog cs).length) ⟨start prog r.name, c, host⟩
      ⟨.error .stackOverflow, d, host⟩ := by
  have hcells := himp.has_entry hr
  rw [entryCells_eq] at hcells
  have hcount : stackWords - (a.words ++ context prog cs).length =
      stackWords - (some (a.address prog) :: (a.words ++ context prog cs)).length + 1 := by
    rw [List.length_cons]
    omega
  rw [hcount]
  exact halts_pushes savedRegisters hcells.left h.holds (by rw [List.length_cons]; omega)
    (by rwa [Entering.length]) host

/-! ## Giving up a frame -/

/-- The registers that are restored, in this order. -/
def restoredRegisters : List Register := [.rbp, .rbx, .rbp, .r12, .r13, .r14, .r15]

theorem exitCells_eq :
    exitCells = .data .movq [.register .rbp, .register .rsp] ::
      (restoredRegisters.map popCell ++ [.data .retq []]) := rfl

/-- The values that are restored. -/
def restoredValues (a : Caller) (cs : List Caller) : List Int64 :=
  [frameAddress cs, a.regs .rbx, frameAddress cs, a.regs .r12, a.regs .r13, a.regs .r14, a.regs .r15]

theorem popped_reg (f : Register → Int64) (q : Reg) {regs : Reg → Int64}
    (hf : ∀ q : Reg, f q.register = regs q) :
    popped restoredRegisters (restoredValues a cs) f q.register = restored a.regs regs q := by
  have hq := hf q
  obtain ⟨reg, hrsp, hrbp⟩ := q
  cases reg <;> first | exact absurd rfl hrsp | exact absurd rfl hrbp | rfl | exact hq

theorem popped_rbp (f : Register → Int64) :
    popped restoredRegisters (restoredValues a cs) f .rbp = frameAddress cs := rfl

/-- A routine in front of its last instruction. -/
theorem Mirrors.runs_exit (himp : code.Implements prog) (hr : r ∈ prog) (h : Mirrors prog s c)
    (hs : s.callers = a :: cs) (host : σ) :
    ∃ d, code.Runs linkWords ⟨pcOf prog r [], c, host⟩ ⟨pcOf prog r [] + linkWords, d, host⟩ ∧
      code.cells[pcOf prog r [] + linkWords]? = some (.data .retq []) ∧
      d.Holds (some (a.address prog) :: (a.words ++ context prog cs)) ∧
      (∀ q : Reg, d.get q.register = restored a.regs s.regs q) ∧ d.get .rbp = frameAddress cs ∧
      d.flags = s.flags ∧ d.returns = s.callers.map (Caller.address prog) := by
  have hcells := himp.has_exit hr
  rw [exitCells_eq] at hcells
  have hdrop : (c.set .rsp (c.get .rbp)).Holds (context prog (a :: cs)) := by
    have hrsp : c.get .rbp =
        addr ((s.words ++ context prog s.callers).length - s.words.length) := by
      rw [List.length_append, Nat.add_sub_cancel_left, length_context, h.rbp, hs]
      rfl
    have := h.holds.drop hrsp
    rwa [List.drop_left, hs] at this
  have hnext : (⟨pcOf prog r [], c, host⟩ : Point σ).next code =
      .ok ⟨pcOf prog r [] + 1, c.set .rsp (c.get .rbp), host⟩ := by
    rw [Point.next_of_data hcells.head (by decide)]
    rfl
  obtain ⟨d, hd, hholds, hregs, hflags, hreturns⟩ := runs_pops restoredRegisters (by decide)
    (restoredValues a cs) rfl hcells.tail.left hdrop host
  refine ⟨d, ⟨_, hnext, hd⟩, ?_, hholds, fun q => ?_, ?_, hflags.trans h.flags, hreturns.trans h.returns⟩
  · exact hcells.tail.right.head
  · rw [hregs _ q.ne_rsp]
    refine popped_reg _ q fun x => ?_
    rw [Cpu.get_set_of_ne _ x.ne_rsp]
    exact h.reg x
  · rw [hregs _ (by decide)]
    exact popped_rbp _

/-- What a return does once the registers are restored. -/
theorem leave_of_holds {x : Int64} {xs : List Int64} (h : c.Holds (some x :: ws))
    (hreturns : c.returns = x :: xs) :
    ∃ d, d.Holds ws ∧ c.Alike { d with returns := c.returns } ∧ d.returns = xs ∧
      Act.leave c = if x = haltAddress then .ok (.halt (c.get .rax)) d
        else .ok (.goto x.toInt.toNat) d := by
  obtain ⟨hlt, hx⟩ := h.word ws.length x (by rw [under_cons, if_pos rfl])
  have hslot : slot? c.rsp = some ⟨ws.length, hlt⟩ := by
    rw [Cpu.rsp, show c.get .rsp = addr (ws.length + 1) from h.rsp, slot?_addr hlt]
  obtain ⟨d, hd, hholds, halike⟩ := Act.pop_of_holds h
  obtain rfl : c.popped = d := by
    rw [Act.pop_of_slot hslot] at hd
    cases hd
    rfl
  refine ⟨{ c.popped with returns := xs }, ⟨hholds.rsp, hholds.word⟩, ⟨halike.reg, halike.flags, rfl⟩, rfl, ?_⟩
  rw [Act.leave_of_slot hslot, hreturns, hx, if_neg (not_not_intro List.head?_cons), List.tail_cons]

/-- **The outermost return ends the run.** -/
theorem Mirrors.leave_halt (himp : code.Implements prog) (hr : r ∈ prog) (h : Mirrors prog s c)
    (hs : s.callers = a :: cs) (hb : a.back = none) (host : σ) :
    ∃ d, code.Halts (linkWords + 1) ⟨pcOf prog r [], c, host⟩ ⟨.ok (s.regs .rax), d, host⟩ := by
  obtain ⟨d, hd, hcell, hholds, hregs, -, -, hreturns⟩ := h.runs_exit himp hr hs host
  rw [hs, List.map_cons] at hreturns
  obtain ⟨e, -, -, -, he⟩ := leave_of_holds hholds hreturns
  have haddr : a.address prog = haltAddress := by
    rw [Caller.address, hb]
  have hrax : d.get .rax = s.regs .rax := hregs .rax
  rw [if_pos haddr, hrax] at he
  refine ⟨e, hd.halts (.one ?_)⟩
  rw [Point.next_of_cell hcell]
  show (Act.leave.step d host).after _ = _
  rw [Act.step, he]
  rfl

/-- **A return takes the caller back.** -/
theorem Mirrors.leave_back (himp : code.Implements prog) (hr : r ∈ prog) (h : Mirrors prog s c)
    (hs : s.callers = a :: cs) {q : Subroutine} {k : List Item} (hb : a.back = some (q, k)) (hq : q ∈ prog)
    (host : σ) :
    ∃ d, code.Runs (linkWords + 1) ⟨pcOf prog r [], c, host⟩ ⟨pcOf prog q k, d, host⟩ ∧
      Mirrors prog
        { routine := q, rest := k, regs := restored a.regs s.regs, flags := s.flags, words := a.words,
          callers := cs } d := by
  obtain ⟨d, hd, hcell, hholds, hregs, hrbp, hflags, hreturns⟩ := h.runs_exit himp hr hs host
  rw [hs, List.map_cons] at hreturns
  obtain ⟨e, hholds', halike, hreturns', he⟩ := leave_of_holds hholds hreturns
  have haddr : a.address prog = Int64.ofNat (pcOf prog q k) := by
    rw [Caller.address, hb]
  have hplace := ofNat_place (Nat.lt_of_lt_of_le (himp.place_lt hq k) (by decide))
  rw [haddr, if_neg hplace.1, hplace.2] at he
  refine ⟨e, hd.trans (.one ?_), ⟨fun x => ?_, ?_, hholds', ?_, hreturns'⟩⟩
  · rw [Point.next_of_cell hcell]
    show (Act.leave.step d host).after _ = _
    rw [Act.step, he]
    rfl
  · exact (halike.reg _ x.ne_rsp).trans (hregs x)
  · exact (halike.reg _ (by decide)).trans hrbp
  · exact halike.flags.trans hflags

end MicroC
