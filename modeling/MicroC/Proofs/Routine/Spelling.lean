import Mathlib.Data.List.Forall2
import MicroC.Emission.Program
import MicroC.Proofs.Routine.Layout

/-!
# Routines as they are written

The blocks of a module spell routines out.

* `Blocks`: the instructions and blocks that items are written as.
* `Spelled`: the blocks of the routines of a program.
* `WellNamed`: no two blocks have one name, and none has that of a function of the host.
* `Spelled.starts`: where the blocks of a routine start.
-/

namespace MicroC

open Convention Emit

/-! ## What is written -/

/-- The opcode and the operands of an instruction. -/
def Instruction.text (i : Instruction) : Opcode × List String := (i.opcode, i.operands)

/-- An instruction spells an operation out. -/
structure Instruction.Spells (exit : String) (i : Instruction) (o : Op) : Prop where
  opcode : i.opcode = o.opcode
  operands : i.operands = o.operands exit

/-- Items as instructions up to the first label, and the blocks from there on. -/
inductive Blocks (exit : String) : List Item → List Instruction → List Block → Prop
  | nil : Blocks exit [] [] []
  | op {i : Instruction} {o : Op} {k : List Item} {code : List Instruction} {bs : List Block}
      (hi : i.Spells exit o) (h : Blocks exit k code bs) : Blocks exit (.op o :: k) (i :: code) bs
  | label {b : Block} {ks : List Kind} {k : List Item} {bs : List Block}
      (h : Blocks exit k b.code bs) : Blocks exit (.label b.name ks :: k) [] (b :: bs)

/-- Saves registers and sets up a frame. -/
def entryTexts : List (Opcode × List String) :=
  [(.pushq, ["%r15"]), (.pushq, ["%r14"]), (.pushq, ["%r13"]), (.pushq, ["%r12"]), (.pushq, ["%rbp"]),
    (.pushq, ["%rbx"]), (.pushq, ["%rbp"]), (.movq, ["%rsp", "%rbp"])]

/-- Gives up a frame, restores registers and returns. -/
def exitTexts : List (Opcode × List String) :=
  [(.movq, ["%rbp", "%rsp"]), (.popq, ["%rbp"]), (.popq, ["%rbx"]), (.popq, ["%rbp"]), (.popq, ["%r12"]),
    (.popq, ["%r13"]), (.popq, ["%r14"]), (.popq, ["%r15"]), (.retq, [])]

/-- The blocks of a routine. The first one starts with the code that sets up the frame, and the last one
gives it up. -/
inductive Subroutine.Spelled (r : Subroutine) : List Block → Prop
  | mk {first last : Block} {entry code : List Instruction} {inner : List Block}
      (hname : first.name = r.name) (hcode : first.code = entry ++ code)
      (hentry : entry.map Instruction.text = entryTexts)
      (hbody : Blocks (exitLabel r.name) r.body code inner) (hlast : last.name = exitLabel r.name)
      (hexit : last.code.map Instruction.text = exitTexts) : r.Spelled (first :: (inner ++ [last]))

/-- The blocks of the routines of a program. -/
inductive Spelled : List Subroutine → List Block → Prop
  | nil : Spelled [] []
  | cons {r : Subroutine} {rs : List Subroutine} {bs cs : List Block} (hr : r.Spelled bs) (h : Spelled rs cs) :
      Spelled (r :: rs) (bs ++ cs)

/-- The names of the blocks of a routine. -/
def Subroutine.names (r : Subroutine) : List String :=
  r.name :: ((labels r.body).map Prod.fst ++ [exitLabel r.name])

/-- No two blocks have one name, and none has that of a function of the host. -/
structure WellNamed (prog : List Subroutine) : Prop where
  nodup : (prog.flatMap Subroutine.names).Nodup
  ne_empty : "" ∉ prog.flatMap Subroutine.names
  host : ∀ f ∈ prog.flatMap Subroutine.names, Intrinsic.ofName? f = none

/-! ## Offsets -/

/-- The number of instructions of blocks. -/
def blockWidth : List Block → Nat
  | [] => 0
  | b :: bs => b.code.length + blockWidth bs

/-- Where the first block with a name starts. -/
def offset? : List Block → String → Option Nat
  | [], _ => none
  | b :: bs, n => if b.name = n then some 0 else (offset? bs n).map (b.code.length + ·)

@[simp] theorem blockWidth_append (bs cs : List Block) :
    blockWidth (bs ++ cs) = blockWidth bs + blockWidth cs := by
  induction bs with
  | nil => simp [blockWidth]
  | cons b bs ih =>
    simp only [List.cons_append, blockWidth, ih]
    omega

theorem offset?_eq_none {bs : List Block} {n : String} (h : n ∉ bs.map Block.name) :
    offset? bs n = none := by
  induction bs with
  | nil => rfl
  | cons b bs ih =>
    rw [List.map_cons, List.mem_cons, not_or] at h
    rw [offset?, if_neg (Ne.symm h.1), ih h.2]
    rfl

theorem offset?_append_left {bs : List Block} {n : String} {k : Nat} (h : offset? bs n = some k)
    (cs : List Block) : offset? (bs ++ cs) n = some k := by
  induction bs generalizing k with
  | nil => cases h
  | cons b bs ih =>
    rw [List.cons_append, offset?]
    rw [offset?] at h
    by_cases hb : b.name = n
    · rw [if_pos hb] at h ⊢
      exact h
    · rw [if_neg hb] at h ⊢
      obtain ⟨j, hj, rfl⟩ := Option.map_eq_some_iff.1 h
      rw [ih hj]
      rfl

theorem offset?_append_right {bs : List Block} {n : String} (h : n ∉ bs.map Block.name)
    (cs : List Block) : offset? (bs ++ cs) n = (offset? cs n).map (blockWidth bs + ·) := by
  induction bs with
  | nil => simp [blockWidth]
  | cons b bs ih =>
    rw [List.map_cons, List.mem_cons, not_or] at h
    rw [List.cons_append, offset?, if_neg (Ne.symm h.1), ih h.2, Option.map_map]
    congr 1
    funext k
    simp only [Function.comp, blockWidth]
    omega

theorem get?_labelsFrom {bs : List Block} (hn : (bs.map Block.name).Nodup)
    (he : "" ∉ bs.map Block.name) (address : Nat) (table : Labels) (n : String) :
    (labelsFrom address table bs).get? n =
      match offset? bs n with
      | some k => some (address + k)
      | none => table.get? n := by
  induction bs generalizing address table with
  | nil => rfl
  | cons b bs ih =>
    rw [List.map_cons, List.nodup_cons] at hn
    rw [List.map_cons, List.mem_cons, not_or] at he
    rw [labelsFrom, if_neg (Ne.symm he.1), ih hn.2 he.2, offset?]
    by_cases hb : b.name = n
    · subst hb
      rw [offset?_eq_none hn.1, if_pos rfl]
      simp
    · rw [if_neg hb]
      cases offset? bs n with
      | some k => simp [Nat.add_assoc]
      | none =>
        simp only [Option.map_none]
        rw [Table.get?_insert, if_neg (Ne.symm hb)]

/-! ## Items -/

section Items

variable {exit : String} {k : List Item} {code : List Instruction} {bs : List Block}

theorem Blocks.names (h : Blocks exit k code bs) : bs.map Block.name = (labels k).map Prod.fst := by
  induction h with
  | nil => rfl
  | op hi h ih => exact ih
  | label h ih => simp [labels, ih]

theorem Blocks.width (h : Blocks exit k code bs) : code.length + blockWidth bs = width k := by
  induction h with
  | nil => rfl
  | op hi h ih =>
    rw [List.length_cons, width_op]
    omega
  | label h ih =>
    rw [List.length_nil, width_label, blockWidth]
    omega

theorem Blocks.offset (h : Blocks exit k code bs) {l : String} {k' : List Item}
    (hl : behind l k = some k') :
    ∃ n, offset? bs l = some n ∧ code.length + n = MicroC.width k - MicroC.width k' := by
  induction h with
  | nil => cases hl
  | @op i o k code bs hi h ih =>
    obtain ⟨n, hn, heq⟩ := ih hl
    have hle := width_le_of_suffix (behind_suffix (show behind l k = some k' from hl))
    refine ⟨n, hn, ?_⟩
    rw [List.length_cons, width_op]
    omega
  | @label b ks k bs h ih =>
    rw [behind] at hl
    rw [offset?]
    by_cases hb : l = b.name
    · rw [if_pos hb] at hl
      cases hl
      rw [if_pos hb.symm]
      refine ⟨0, rfl, ?_⟩
      rw [width_label, List.length_nil]
      omega
    · rw [if_neg hb] at hl
      rw [if_neg (Ne.symm hb)]
      obtain ⟨n, hn, heq⟩ := ih hl
      refine ⟨b.code.length + n, by rw [hn]; rfl, ?_⟩
      rw [width_label, List.length_nil]
      omega

end Items

/-! ## Routines -/

section Routines

variable {r : Subroutine} {bs : List Block} {prog : List Subroutine}

theorem length_entry {entry : List Instruction} (h : entry.map Instruction.text = entryTexts) :
    entry.length = entryWidth := by
  rw [← List.length_map Instruction.text, h]
  rfl

theorem Subroutine.Spelled.names_eq (h : r.Spelled bs) : bs.map Block.name = r.names := by
  obtain ⟨hname, hcode, hentry, hbody, hlast, hexit⟩ := h
  rw [List.map_cons, List.map_append, hbody.names, hname, List.map_singleton, hlast]
  rfl

theorem Subroutine.Spelled.width_eq (h : r.Spelled bs) : blockWidth bs = r.width := by
  obtain ⟨hname, hcode, hentry, hbody, hlast, hexit⟩ := h
  have hlen : ∀ {xs : List Instruction}, xs.map Instruction.text = exitTexts → xs.length = exitWidth := by
    intro xs hxs
    rw [← List.length_map Instruction.text, hxs]
    rfl
  have hw := hbody.width
  simp only [blockWidth, blockWidth_append, hcode, List.length_append, length_entry hentry, hlen hexit,
    Subroutine.width]
  omega

/-- Where the blocks of a routine start, counted from its own start. -/
structure Subroutine.Starts (r : Subroutine) (at? : String → Option Nat) : Prop where
  name : at? r.name = some 0
  label : ∀ l k, behind l r.body = some k → at? l = some (entryWidth + (MicroC.width r.body - MicroC.width k))
  exit : at? (exitLabel r.name) = some (entryWidth + MicroC.width r.body)

theorem mem_labels_of_behind {l : String} {j k : List Item} (h : behind l j = some k) :
    l ∈ (labels j).map Prod.fst := by
  induction j with
  | nil => cases h
  | cons i j ih =>
    cases i with
    | op o => exact ih h
    | label m ks =>
      rw [behind] at h
      rw [labels, List.map_cons]
      by_cases hl : l = m
      · rw [hl]
        exact List.mem_cons_self
      · rw [if_neg hl] at h
        exact List.mem_cons_of_mem _ (ih h)

theorem Subroutine.Spelled.starts (h : r.Spelled bs) (hn : r.names.Nodup) : r.Starts (offset? bs) := by
  obtain ⟨hname, hcode, hentry, hbody, hlast, hexit⟩ := h
  rw [Subroutine.names, List.nodup_cons, List.nodup_append] at hn
  obtain ⟨hfirst, -, -, hdisj⟩ := hn
  refine ⟨?_, fun l k hl => ?_, ?_⟩
  · rw [offset?, if_pos hname]
  · have hmem := mem_labels_of_behind hl
    have hne : r.name ≠ l := by
      rintro rfl
      exact hfirst (List.mem_append_left _ hmem)
    obtain ⟨n, hn, heq⟩ := hbody.offset hl
    rw [offset?, if_neg (by rw [hname]; exact hne), offset?_append_left hn, hcode, List.length_append,
      length_entry hentry]
    simp only [Option.map_some, Option.some.injEq]
    omega
  · have hne : r.name ≠ exitLabel r.name := by
      intro heq
      exact hfirst (List.mem_append_right _ (by rw [List.mem_singleton]; exact heq))
    have hout : exitLabel r.name ∉ _ := fun hmem => hdisj _ hmem _ (List.mem_singleton.2 rfl) rfl
    have hw := hbody.width
    rw [offset?, if_neg (by rw [hname]; exact hne), offset?_append_right (by rw [hbody.names]; exact hout),
      offset?, if_pos hlast, hcode, List.length_append, length_entry hentry]
    simp only [Option.map_some, Option.some.injEq]
    omega

theorem Spelled.names_eq (h : Spelled prog bs) : bs.map Block.name = prog.flatMap Subroutine.names := by
  induction h with
  | nil => rfl
  | cons hr h ih => rw [List.map_append, List.flatMap_cons, hr.names_eq, ih]

theorem Spelled.width_eq (h : Spelled prog bs) : blockWidth bs = programWidth prog := by
  induction h with
  | nil => rfl
  | cons hr h ih => rw [blockWidth_append, programWidth, hr.width_eq, ih]

theorem nodup_routine_names (hn : (prog.flatMap Subroutine.names).Nodup) :
    (prog.map Subroutine.name).Nodup := by
  induction prog with
  | nil => exact List.nodup_nil
  | cons q rs ih =>
    rw [List.flatMap_cons, List.nodup_append] at hn
    rw [List.map_cons, List.nodup_cons]
    refine ⟨fun hmem => ?_, ih hn.2.1⟩
    obtain ⟨r, hr, heq⟩ := List.mem_map.1 hmem
    have hr' : r.name ∈ rs.flatMap Subroutine.names := List.mem_flatMap.2 ⟨r, hr, List.mem_cons_self⟩
    exact hn.2.2 q.name List.mem_cons_self r.name hr' heq.symm

theorem Spelled.starts (h : Spelled prog bs) (hn : (prog.flatMap Subroutine.names).Nodup) (hr : r ∈ prog) :
    ∃ at?, r.Starts at? ∧ ∀ l ∈ r.names, offset? bs l = (at? l).map (start prog r.name + ·) := by
  induction h with
  | nil => cases hr
  | @cons q rs bs cs hq h ih =>
    rw [List.flatMap_cons, List.nodup_append] at hn
    obtain ⟨hnq, hnrs, hdisj⟩ := hn
    rcases List.mem_cons.1 hr with rfl | hr
    · refine ⟨offset? bs, hq.starts hnq, fun l hl => ?_⟩
      rw [start, if_pos rfl]
      have hmem : l ∈ bs.map Block.name := by rwa [hq.names_eq]
      have hsome : ∃ n, offset? bs l = some n := by
        clear hq h
        induction bs with
        | nil => cases hmem
        | cons b bs ih =>
          rw [offset?]
          by_cases hb : b.name = l
          · exact ⟨0, if_pos hb⟩
          · rw [List.map_cons, List.mem_cons] at hmem
            obtain ⟨n, hn⟩ := ih (hmem.resolve_left (Ne.symm hb))
            exact ⟨b.code.length + n, by rw [if_neg hb, hn]; rfl⟩
      obtain ⟨n, hn⟩ := hsome
      rw [offset?_append_left hn, hn]
      simp
    · obtain ⟨at?, hstarts, hoff⟩ := ih hnrs hr
      refine ⟨at?, hstarts, fun l hl => ?_⟩
      have hmem : l ∈ rs.flatMap Subroutine.names := List.mem_flatMap.2 ⟨r, hr, hl⟩
      have hout : l ∉ bs.map Block.name := by
        rw [hq.names_eq]
        exact fun hmem' => hdisj l hmem' l hmem rfl
      have hne : q.name ≠ r.name := by
        intro heq
        exact hdisj q.name List.mem_cons_self r.name
          (List.mem_flatMap.2 ⟨r, hr, List.mem_cons_self⟩) heq
      rw [offset?_append_right hout, hoff l hl, hq.width_eq, start, if_neg hne, Option.map_map]
      congr 1
      funext n
      simp only [Function.comp]
      omega

end Routines

/-! ## Instructions -/

section Instructions

variable {r : Subroutine} {bs : List Block} {prog : List Subroutine}

theorem Blocks.spells {exit : String} {k : List Item} {is : List Instruction} (h : MicroC.Blocks exit k is bs) :
    (∀ i ∈ is, ∃ o, .op o ∈ k ∧ i.Spells exit o) ∧ ∀ b ∈ bs, ∀ i ∈ b.code, ∃ o, .op o ∈ k ∧ i.Spells exit o := by
  have hmore : ∀ {j : Item} {k : List Item} {i : Instruction}, (∃ o, .op o ∈ k ∧ i.Spells exit o) →
      ∃ o, .op o ∈ j :: k ∧ i.Spells exit o := fun ⟨o, ho, hi⟩ => ⟨o, List.mem_cons_of_mem _ ho, hi⟩
  induction h with
  | nil => exact ⟨nofun, nofun⟩
  | op hi _ ih =>
    exact ⟨List.forall_mem_cons.2 ⟨⟨_, List.mem_cons_self, hi⟩, fun i hmem => hmore (ih.1 i hmem)⟩,
      fun b hb i hmem => hmore (ih.2 b hb i hmem)⟩
  | label _ ih =>
    exact ⟨nofun, List.forall_mem_cons.2 ⟨fun i hmem => hmore (ih.1 i hmem),
      fun b hb i hmem => hmore (ih.2 b hb i hmem)⟩⟩

/-- An instruction of a routine belongs to the frame or spells an operation. -/
theorem Subroutine.Spelled.spells (h : r.Spelled bs) {b : Block} (hb : b ∈ bs) {i : Instruction} (hi : i ∈ b.code) :
    i.text ∈ entryTexts ++ exitTexts ∨ ∃ o, .op o ∈ r.body ∧ i.Spells (exitLabel r.name) o := by
  obtain ⟨hname, hcode, hentry, hbody, hlast, hexit⟩ := h
  rw [List.mem_append, ← hentry, ← hexit]
  rcases List.mem_cons.1 hb with rfl | hb
  · rw [hcode] at hi
    rcases List.mem_append.1 hi with hi | hi
    · exact .inl (.inl (List.mem_map_of_mem hi))
    · exact .inr (hbody.spells.1 i hi)
  · rcases List.mem_append.1 hb with hb | hb
    · exact .inr (hbody.spells.2 b hb i hi)
    · rw [List.mem_singleton.1 hb] at hi
      exact .inl (.inr (List.mem_map_of_mem hi))

theorem stays_of_mem_texts {t : Opcode × List String} (h : t ∈ entryTexts ++ exitTexts) :
    t.1.isJump = false ∧ t.1 ≠ .call := by
  revert t
  decide

/-- Jumps of a routine name its blocks. -/
theorem Subroutine.Spelled.jumps (h : r.Spelled bs)
    (hl : ∀ j l, .op (.jump j l) ∈ r.body → l ∈ (labels r.body).map Prod.fst) {b : Block} (hb : b ∈ bs)
    {i : Instruction} (hi : i ∈ b.code) (hjump : i.opcode.isJump = true) : ∃ l, i.operands = [l] ∧ l ∈ r.names := by
  rcases h.spells hb hi with htext | ⟨o, hmem, hspells⟩
  · have hno := (stays_of_mem_texts htext).1
    rw [show i.text.1 = i.opcode from rfl, hjump] at hno
    cases hno
  · rw [hspells.opcode] at hjump
    rw [hspells.operands]
    cases o with
    | jump j l => exact ⟨l, rfl, List.mem_cons_of_mem _ (List.mem_append_left _ (hl j l hmem))⟩
    | exit => exact ⟨_, rfl, List.mem_cons_of_mem _ (List.mem_append_right _ (List.mem_singleton.2 rfl))⟩
    | combine f => cases f <;> cases hjump
    | select c => cases c <;> cases hjump
    | _ => cases hjump

theorem Spelled.parts (h : Spelled prog bs) :
    ∃ parts : List (List Block), bs = parts.flatten ∧ List.Forall₂ Subroutine.Spelled prog parts := by
  induction h with
  | nil => exact ⟨[], rfl, .nil⟩
  | @cons r rs bs cs hr _ ih =>
    obtain ⟨parts, rfl, hparts⟩ := ih
    exact ⟨bs :: parts, rfl, .cons hr hparts⟩

/-- Blocks that follow one another, with the names of the blocks of each routine. -/
theorem Spelled.split (h : Spelled prog bs) {parts : List (List Block)} (hbs : bs = parts.flatten)
    (hnames : parts.map (·.map Block.name) = prog.map Subroutine.names) :
    List.Forall₂ Subroutine.Spelled prog parts := by
  induction h generalizing parts with
  | nil =>
    obtain rfl := List.map_eq_nil_iff.1 hnames
    exact .nil
  | @cons r rs bs cs hr _ ih =>
    obtain ⟨part, parts, rfl, hpart, hparts⟩ := List.map_eq_cons_iff.1 hnames
    have hlen : bs.length = part.length := by
      rw [← List.length_map Block.name, hr.names_eq, ← hpart, List.length_map]
    obtain ⟨rfl, rfl⟩ := List.append_inj (hbs.trans List.flatten_cons) hlen
    exact .cons hr (ih rfl hparts)

theorem Spelled.of_parts {parts : List (List Block)} (h : List.Forall₂ Subroutine.Spelled prog parts) :
    Spelled prog parts.flatten := by
  induction h with
  | nil => exact .nil
  | cons hr _ ih => exact .cons hr ih

theorem map_names_of_parts {parts : List (List Block)} (h : List.Forall₂ Subroutine.Spelled prog parts) :
    prog.map Subroutine.names = parts.map (·.map Block.name) := by
  induction h with
  | nil => rfl
  | cons hr _ ih => rw [List.map_cons, List.map_cons, hr.names_eq, ih]

end Instructions

end MicroC
