import MicroC.Machine.Host
import MicroC.Proofs.Routine.Op

/-!
# Running routines

A machine whose stack is a stack of frames. A call puts the frame of its caller aside and a return takes
it back, so no return address, saved register or frame pointer can be seen. The depth of the stack is that
of the words in memory, eight of which lie between two frames.

* `State`: a routine at work, and the callers that wait for it.
* `Op.run`: one operation. It has no outcome where the discipline of frames is broken.
* `State.next`, `State.cost`: one step and the number of instructions it takes.
-/

namespace MicroC

/-! ## Lists with keys -/

theorem find?_eq_some_iff {α : Type} {xs : List α} {key : α → String} (hn : (xs.map key).Nodup) {k : String} {x : α} :
    xs.find? (key · == k) = some x ↔ x ∈ xs ∧ key x = k := by
  refine ⟨fun h => ⟨List.mem_of_find?_eq_some h, by simpa using List.find?_some h⟩, ?_⟩
  rintro ⟨hx, rfl⟩
  induction xs with
  | nil => cases hx
  | cons y ys ih =>
    rw [List.map_cons, List.nodup_cons] at hn
    rcases List.mem_cons.1 hx with rfl | hx
    · exact List.find?_cons_of_pos (beq_self_eq_true _)
    · have hne : key y ≠ key x := fun h => hn.1 (h ▸ List.mem_map_of_mem hx)
      rw [List.find?_cons_of_neg (by simpa using hne)]
      exact ih hn.2 hx

/-! ## Stacks counted from the bottom -/

section Under

variable {α : Type}

/-- The entry of a stack with `i` entries below it. -/
def under (xs : List α) (i : Nat) : Option α := xs.reverse[i]?

/-- Replaces the entry with `i` entries below it. -/
def setUnder (xs : List α) (i : Nat) (a : α) : List α := (xs.reverse.set i a).reverse

theorem under_cons (x : α) (xs : List α) (i : Nat) :
    under (x :: xs) i = if i = xs.length then some x else under xs i := by
  unfold under
  rw [List.reverse_cons, List.getElem?_append, List.length_reverse]
  by_cases h : i < xs.length
  · rw [if_pos h, if_neg (by omega)]
  · rw [if_neg h]
    by_cases h' : i = xs.length
    · rw [if_pos h', h', Nat.sub_self]
      rfl
    · rw [if_neg h', List.getElem?_eq_none (by simp; omega), List.getElem?_eq_none (by simp; omega)]

@[simp] theorem under_nil (i : Nat) : under ([] : List α) i = none := rfl

theorem under_eq_none {xs : List α} {i : Nat} : under xs i = none ↔ xs.length ≤ i := by
  unfold under
  rw [List.getElem?_eq_none_iff, List.length_reverse]

theorem lt_of_under {xs : List α} {i : Nat} {a : α} (h : under xs i = some a) : i < xs.length := by
  by_cases hi : i < xs.length
  · exact hi
  · rw [under_eq_none.2 (by omega)] at h
    simp at h

theorem under_append (xs ys : List α) (i : Nat) :
    under (xs ++ ys) i = if i < ys.length then under ys i else under xs (i - ys.length) := by
  unfold under
  rw [List.reverse_append, List.getElem?_append, List.length_reverse]

@[simp] theorem length_setUnder (xs : List α) (i : Nat) (a : α) :
    (setUnder xs i a).length = xs.length := by
  simp [setUnder]

theorem under_setUnder (xs : List α) (i j : Nat) (a : α) :
    under (setUnder xs i a) j = if i = j ∧ j < xs.length then some a else under xs j := by
  unfold under setUnder
  rw [List.reverse_reverse, List.getElem?_set, List.length_reverse]
  by_cases h : i = j
  · subst h
    by_cases h' : i < xs.length
    · simp [h']
    · simp [h']
  · simp [h]

theorem setUnder_cons {x : α} {xs : List α} {i : Nat} (h : i < xs.length) (a : α) :
    setUnder (x :: xs) i a = x :: setUnder xs i a := by
  unfold setUnder
  rw [List.reverse_cons, List.set_append_left i a (by rwa [List.length_reverse]), List.reverse_append]
  rfl

end Under

/-! ## States -/

/-- A caller that waits for a call to return. -/
structure Caller where
  /-- Where it goes on. The run ends when the outermost call returns. -/
  back : Option (Subroutine × List Item)
  regs : Reg → Int64
  words : List (Option Int64)

/-- A routine at work. A word that was never written has no value. -/
structure State where
  routine : Subroutine
  rest : List Item
  regs : Reg → Int64
  flags : Option (Int64 × Int64)
  words : List (Option Int64)
  callers : List Caller

/-- The words between two frames: a return address, six saved registers and the frame pointer. -/
def linkWords : Nat := 8

/-- How many words lie above the frame pointer. -/
def contextDepth : List Caller → Nat
  | [] => 0
  | c :: cs => linkWords + c.words.length + contextDepth cs

namespace State

/-- The depth of the stack. -/
def depth (s : State) : Nat := s.words.length + contextDepth s.callers

/-- Gives a register a value. -/
def set (s : State) (r : Reg) (w : Int64) : State :=
  { s with regs := fun q => if q = r then w else s.regs q }

@[simp] theorem set_regs (s : State) (r : Reg) (w : Int64) (q : Reg) :
    (s.set r w).regs q = if q = r then w else s.regs q := rfl

theorem set_self (s : State) (r : Reg) : s.set r (s.regs r) = s := by
  unfold set
  congr 1
  funext q
  split
  · next hq => rw [hq]
  · rfl

@[simp] theorem set_words (s : State) (r : Reg) (w : Int64) : (s.set r w).words = s.words := rfl

@[simp] theorem set_flags (s : State) (r : Reg) (w : Int64) : (s.set r w).flags = s.flags := rfl

@[simp] theorem set_rest (s : State) (r : Reg) (w : Int64) : (s.set r w).rest = s.rest := rfl

@[simp] theorem set_routine (s : State) (r : Reg) (w : Int64) :
    (s.set r w).routine = s.routine := rfl

@[simp] theorem set_callers (s : State) (r : Reg) (w : Int64) :
    (s.set r w).callers = s.callers := rfl

end State

/-- The state of a routine in front of its body. -/
def entryState (r : Subroutine) (a : Caller) (cs : List Caller) (flags : Option (Int64 × Int64)) : State where
  routine := r
  rest := r.body
  regs := a.regs
  flags := flags
  words := []
  callers := a :: cs

/-- What a step comes to. -/
inductive Outcome (σ : Type)
  | goes (s : State) (host : σ)
  | halts (w : Int64) (host : σ)
  | fails (e : MachineError) (host : σ)

/-! ## Operations -/

/-- What a step may depend on besides the state. -/
structure Junk where
  /-- What a word without a value holds, or its address where there is no memory for it. -/
  word : Except Nat Int64
  /-- The address that a push far below the stack hits, unless the overflow is noticed. -/
  far : Option Nat

/-- The value of a word. -/
def wordValue (junk : Junk) : Option Int64 → Except MachineError Int64
  | some w => .ok w
  | none => junk.word.mapError .invalidAddress

/-- The value of a source. The outermost routine has no stack arguments, and there is no memory where they
would be. -/
def Src.read (junk : Junk) (s : State) : Src → Option (Except MachineError Int64)
  | .imm w => some (.ok w)
  | .reg r => some (.ok (s.regs r))
  | .slot n => (under s.words n).map (wordValue junk)
  | .param n =>
    match s.callers with
    | [] => none
    | c :: _ =>
      if Convention.argumentRegisters.length + n < s.routine.arity then
        match c.words[n]? with
        | some w => some (wordValue junk w)
        | none =>
          if c.back.isNone then some (.error (.invalidAddress (stackTop + Convention.wordSize * n)))
          else none
      else none

/-- How many words there is room for in the address space below the stack. -/
def slack : Nat := stackTop / Convention.wordSize - stackWords - 1

/-- What comes of a push on a full stack. It is noticed unless the addresses wrapped around. -/
def State.overflow (junk : Junk) (s : State) : MachineError :=
  if s.depth ≤ stackWords + slack then .stackOverflow
  else
    match junk.far with
    | none => .stackOverflow
    | some a => .invalidAddress a

/-- All bits the sign of a word. -/
def signWord (w : Int64) : Int64 := if w < 0 then -1 else 0

/-- The values of the first words of a list. -/
def topValues : Nat → List (Option Int64) → Option (List Int64)
  | 0, _ => some []
  | n + 1, some w :: ws => (topValues n ws).map (w :: ·)
  | _ + 1, _ => none

/-- The arguments of a call with `n` of them: first those in registers, then those on the stack. -/
def State.arguments (s : State) (n : Nat) : Option (List Int64) :=
  (topValues (Convention.stackArguments n) s.words).map ((Reg.arguments.take n).map s.regs ++ ·)

/-- The registers behind a call: a routine keeps some of them. -/
def restored (before after : Reg → Int64) (r : Reg) : Int64 :=
  if r ∈ Reg.saved then before r else after r

variable {σ : Type} [Host σ]

/-- Goes on with a value that was read. -/
def Outcome.reading (value : Option (Except MachineError Int64)) (host : σ)
    (f : Int64 → Option (Outcome σ)) : Option (Outcome σ) :=
  match value with
  | none => none
  | some (.error e) => some (.fails e host)
  | some (.ok w) => f w

/-- Calls a function of the program, or one of the host. -/
def State.call (prog : List Subroutine) (junk : Junk) (f : String) (s : State) (host : σ) :
    Option (Outcome σ) :=
  match prog.find? (·.name == f) with
  | some r =>
    some <|
      if s.depth + linkWords ≤ stackWords then
        .goes (entryState r ⟨some (s.routine, s.rest), s.regs, s.words⟩ s.callers s.flags) host
      else .fails (s.overflow junk) host
  | none =>
    match Intrinsic.ofName? f with
    | none => none
    | some i =>
      match s.arguments i.arity with
      | none => none
      | some args =>
        match i.call args host with
        | (.ok w, host) => some (.goes (s.set .rax w) host)
        | (.error e, host) => some (.fails e host)

/-- One operation, with `s.rest` behind it. -/
def Op.run (prog : List Subroutine) (junk : Junk) (o : Op) (s : State) (host : σ) :
    Option (Outcome σ) :=
  match o with
  | .push src _ =>
    Outcome.reading (src.read junk s) host fun w =>
      some <|
        if s.depth < stackWords then .goes { s with words := some w :: s.words } host
        else .fails (s.overflow junk) host
  | .pop r =>
    match s.words with
    | some w :: ws => some (.goes ({ s with words := ws }.set r w) host)
    | _ => none
  | .move src r => Outcome.reading (src.read junk s) host fun w => some (.goes (s.set r w) host)
  | .store r n =>
    match under s.words n with
    | none => none
    | some w =>
      Outcome.reading (some (wordValue junk w)) host fun _ =>
        some (.goes { s with words := setUnder s.words n (some (s.regs r)) } host)
  | .peek r =>
    match s.words with
    | some w :: _ => some (.goes (s.set r w) host)
    | _ => none
  | .combine f src r =>
    Outcome.reading (src.read junk s) host fun w => some (.goes (s.set r (f.apply (s.regs r) w)) host)
  | .negate r => some (.goes (s.set r (-(s.regs r))) host)
  | .extend => some (.goes (s.set .rdx (signWord (s.regs .rax))) host)
  | .divide r =>
    if s.regs .rdx = signWord (s.regs .rax) then
      some <|
        if s.regs r = 0 then .fails .divisionByZero host
        else if s.regs .rax = Int64.minValue ∧ s.regs r = -1 then .fails .divisionOverflow host
        else .goes ((s.set .rax (s.regs .rax / s.regs r)).set .rdx (s.regs .rax % s.regs r)) host
    else none
  | .compare src r =>
    Outcome.reading (src.read junk s) host fun w =>
      some (.goes { s with flags := some (s.regs r, w) } host)
  | .select o src r =>
    match s.flags with
    | none => none
    | some (dst, x) => some (.goes (if o.holds dst x then s.set r (s.regs src) else s) host)
  | .grow => some (.goes { s with words := none :: s.words } host)
  | .shrink n =>
    if n < s.words.length then some (.goes { s with words := s.words.drop (n + 1) } host) else none
  | .nop => some (.goes s host)
  | .jump j l =>
    match j.taken? s.flags with
    | none => none
    | some false => some (.goes s host)
    | some true => (behind l s.routine.body).map fun k => .goes { s with rest := k } host
  | .exit => some (.goes { s with rest := [] } host)
  | .call f => if s.words.length % 2 = 0 then s.call prog junk f host else none

namespace State

/-- Returns from the routine. -/
def leave (s : State) (host : σ) : Option (Outcome σ) :=
  match s.callers with
  | [] => none
  | c :: cs =>
    match c.back with
    | none => some (.halts (s.regs .rax) host)
    | some (r, k) =>
      some (.goes { routine := r, rest := k, regs := restored c.regs s.regs, flags := s.flags,
                    words := c.words, callers := cs } host)

/-- One step. -/
def next (prog : List Subroutine) (junk : Junk) (s : State) (host : σ) : Option (Outcome σ) :=
  match s.rest with
  | [] => s.leave host
  | .label _ _ :: k => some (.goes { s with rest := k } host)
  | .op o :: k => o.run prog junk { s with rest := k } host

/-- The number of instructions of a step. A call goes behind the code that sets up the frame. -/
def cost (prog : List Subroutine) (s : State) : Nat :=
  match s.rest with
  | [] => linkWords + 1
  | .label _ _ :: _ => 0
  | .op (.call f) :: _ => if (prog.find? (·.name == f)).isSome then linkWords + 1 else 1
  | .op _ :: _ => 1

end State

end MicroC
