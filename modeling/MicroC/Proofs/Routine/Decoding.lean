import MicroC.Proofs.Routine.Operand
import MicroC.Proofs.Routine.Safe
import MicroC.Proofs.Routine.Spelling

/-!
# The code of routines

If the names of its blocks differ and its routines are in order, a module that spells routines has code,
and that code consists of the routines.

* `decode_op`: an instruction decodes to the operation it spells.
* `Check.resolved`: what an operation that is in order refers to exists.
* **`implements_of_spelled`**: the code of a module.
-/

namespace MicroC

open Convention Emit

/-! ## Decoding -/

section Decoding

variable {table : Labels} {prog : List Subroutine} {r : Subroutine}

theorem decodeAll_append {is js : List Instruction} {cs ds : List Cell}
    (hi : decodeAll table is = .ok cs) (hj : decodeAll table js = .ok ds) :
    decodeAll table (is ++ js) = .ok (cs ++ ds) := by
  induction is generalizing cs with
  | nil =>
    cases hi
    exact hj
  | cons i is ih =>
    rw [List.cons_append, decodeAll]
    rw [decodeAll] at hi
    split at hi
    · cases hi
    · next c hc =>
      cases hs : decodeAll table is with
      | error e =>
        rw [hs] at hi
        cases hi
      | ok cs' =>
        rw [hs] at hi
        cases hi
        rw [ih hs]
        rfl

theorem decode_text {i j : Instruction} (h : i.text = j.text) : decode table i = decode table j := by
  obtain ⟨op, args, c⟩ := i
  obtain ⟨op', args', c'⟩ := j
  cases h
  rfl

theorem decodeAll_text (table : Labels) {is js : List Instruction}
    (h : is.map Instruction.text = js.map Instruction.text) :
    decodeAll table is = decodeAll table js := by
  induction is generalizing js with
  | nil =>
    cases js with
    | nil => rfl
    | cons => cases h
  | cons i is ih =>
    cases js with
    | nil => cases h
    | cons j js =>
      rw [List.map_cons, List.map_cons, List.cons.injEq] at h
      rw [decodeAll, decodeAll, decode_text h.1, ih h.2]

/-- Instructions without comments. -/
def plain (texts : List (Opcode × List String)) : List Instruction :=
  texts.map fun t => { opcode := t.1, operands := t.2 }

theorem map_text_plain (texts : List (Opcode × List String)) :
    (plain texts).map Instruction.text = texts := by
  induction texts with
  | nil => rfl
  | cons t ts ih => rw [plain, List.map_cons, List.map_cons] at *; rw [ih]; rfl

theorem decodeAll_entry (table : Labels) : decodeAll table (plain entryTexts) = .ok entryCells := rfl

theorem decodeAll_exit (table : Labels) : decodeAll table (plain exitTexts) = .ok exitCells := rfl

/-- What the operands of an operation of a routine refer to exists. -/
structure Op.Resolved (prog : List Subroutine) (r : Subroutine) (o : Op) : Prop where
  inRange : o.InRange
  jump : ∀ j l, o = .jump j l → (behind l r.body).isSome = true
  call : ∀ f, o = .call f → (arityOf prog f).isSome = true

/-- The table of labels knows the labels of a routine and all functions. -/
structure Knows (table : Labels) (prog : List Subroutine) (r : Subroutine) : Prop where
  label : ∀ l k, behind l r.body = some k → table.get? l = some (pcOf prog r k)
  exit : table.get? (exitLabel r.name) = some (pcOf prog r [])
  routine : ∀ q ∈ prog, table.get? q.name = some (start prog q.name)
  host : ∀ f i, Intrinsic.ofName? f = some i → table.get? f = none

theorem Op.opcode_of_isData {o : Op} (h : o.isData = true) :
    o.opcode.isJump = false ∧ o.opcode ≠ .call := by
  cases o with
  | combine f => cases f <;> exact ⟨rfl, nofun⟩
  | select f => cases f <;> exact ⟨rfl, nofun⟩
  | jump j l => cases h
  | exit => cases h
  | call f => cases h
  | _ => exact ⟨rfl, nofun⟩

theorem decode_data {i : Instruction} {o : Op} (ho : o.isData = true) (h : o.InRange) {exit : String}
    (hi : i.Spells exit o) : decode table i = .ok (.data o.opcode o.args) := by
  obtain ⟨hjump, hcall⟩ := Op.opcode_of_isData ho
  rw [decode, hi.opcode, hi.operands, if_neg (by simp [hjump]), if_neg hcall,
    decodeArgs_op ho h exit o.opcode]
  rfl

/-- **An instruction decodes to the operation it spells.** -/
theorem decode_op {i : Instruction} {o : Op} (hk : Knows table prog r) (ho : o.Resolved prog r)
    (hi : i.Spells (exitLabel r.name) o) : decode table i = .ok (o.cell prog r) := by
  cases o with
  | jump j l =>
    obtain ⟨k, hb⟩ := Option.isSome_iff_exists.1 (ho.jump j l rfl)
    have hjump : (Op.jump j l).opcode.isJump = true := by cases j <;> rfl
    rw [decode, hi.opcode, hi.operands, if_pos hjump, Op.operands, decodeJump, hk.label l k hb]
    simp only [Op.cell, hb]
    rfl
  | exit =>
    rw [decode, hi.opcode, hi.operands, if_pos (by decide), Op.operands, decodeJump, hk.exit]
    rfl
  | call f =>
    have hcall := ho.call f rfl
    have hdecode : decode table i = .ok (.call [target table f]) := by
      rw [decode, hi.opcode, hi.operands]
      rfl
    rw [hdecode, target, Op.cell]
    rw [arityOf] at hcall
    cases hfind : prog.find? (·.name == f) with
    | some q =>
      obtain ⟨hq, rfl⟩ := find?_mem hfind
      rw [hk.routine q hq]
      rfl
    | none =>
      rw [hfind] at hcall
      obtain ⟨n, hn⟩ := Option.isSome_iff_exists.1 hcall
      obtain ⟨i, hi, -⟩ := Option.map_eq_some_iff.1 hn
      rw [hk.host f i hi]
      rfl
  | _ =>
    rw [decode_data rfl ho.inRange hi]
    rfl

theorem decodeAll_blocks {exit : String} {k : List Item} {code : List Instruction} {bs : List Block}
    (h : Blocks exit k code bs) (hk : Knows table prog r) (hexit : exit = exitLabel r.name)
    (ho : ∀ o, .op o ∈ k → o.Resolved prog r) :
    decodeAll table (code ++ bs.flatMap Block.code) = .ok (itemCells prog r k) := by
  induction h with
  | nil => rfl
  | @op i o k code bs hi h ih =>
    have hi' := decode_op hk (ho o List.mem_cons_self) (hexit ▸ hi)
    rw [List.cons_append, decodeAll, hi']
    dsimp only
    rw [ih fun o hmem => ho o (List.mem_cons_of_mem _ hmem)]
    rfl
  | @label b ks k bs h ih =>
    rw [List.nil_append, List.flatMap_cons]
    exact ih fun o hmem => ho o (List.mem_cons_of_mem _ hmem)

theorem decodeAll_routine {bs : List Block} (h : r.Spelled bs) (hk : Knows table prog r)
    (ho : ∀ o, .op o ∈ r.body → o.Resolved prog r) :
    decodeAll table (bs.flatMap Block.code) = .ok (r.cells prog) := by
  obtain ⟨hname, hcode, hentry, hbody, hlast, hexit⟩ := h
  have hfirst := decodeAll_text table (hentry.trans (map_text_plain entryTexts).symm)
  have hend := decodeAll_text table (hexit.trans (map_text_plain exitTexts).symm)
  rw [decodeAll_entry] at hfirst
  rw [decodeAll_exit] at hend
  have hall := decodeAll_append (decodeAll_append hfirst (decodeAll_blocks hbody hk rfl ho)) hend
  simpa [hcode, Subroutine.cells, List.append_assoc] using hall

theorem decodeAll_program {prog' : List Subroutine} {bs : List Block} (h : Spelled prog' bs)
    (hk : ∀ r ∈ prog', Knows table prog r) (ho : ∀ r ∈ prog', ∀ o, .op o ∈ r.body → o.Resolved prog r) :
    decodeAll table (bs.flatMap Block.code) = .ok (prog'.flatMap (Subroutine.cells prog)) := by
  induction h with
  | nil => rfl
  | @cons r rs bs cs hr h ih =>
    rw [List.flatMap_append, List.flatMap_cons]
    refine decodeAll_append (decodeAll_routine hr (hk r List.mem_cons_self) (ho r List.mem_cons_self)) ?_
    exact ih (fun q hq => hk q (List.mem_cons_of_mem _ hq)) fun q hq => ho q (List.mem_cons_of_mem _ hq)

end Decoding

/-! ## Modules -/

section Modules

variable {prog : List Subroutine} {mode : Mode} {m : Module}

theorem behind_of_mem_labels {l : String} {ks : List Kind} {k : List Item} (h : (l, ks) ∈ labels k) :
    (behind l k).isSome = true := by
  induction k with
  | nil => cases h
  | cons i k ih =>
    cases i with
    | op o => exact ih h
    | label n ns =>
      rw [behind]
      by_cases hl : l = n
      · rw [if_pos hl]
        rfl
      · rw [if_neg hl]
        rw [labels, List.mem_cons, Prod.mk.injEq] at h
        exact ih (h.resolve_left fun heq => hl heq.1)

/-- The words of a frame stay within their bound. -/
theorem Op.effect_words {o : Op} {env : Setting} {sh th : Shape} (h : o.effect env sh = some th)
    (hw : sh.words.length ≤ wordLimit) : th.words.length ≤ wordLimit := by
  cases o with
  | push s k =>
    obtain ⟨-, hlt, -, -, rfl⟩ := effect_push.1 h
    exact hlt
  | pop r =>
    obtain ⟨ks, hks, rfl⟩ := effect_pop.1 h
    rw [hks, List.length_cons] at hw
    exact Nat.le_of_succ_le hw
  | move s r =>
    obtain ⟨-, rfl⟩ := effect_move.1 h
    exact hw
  | store r n =>
    obtain ⟨-, -, rfl⟩ := effect_store.1 h
    exact hw
  | peek r =>
    obtain ⟨-, -, -, -, rfl⟩ := effect_peek.1 h
    exact hw
  | combine f s r =>
    obtain ⟨-, -, -, rfl⟩ := effect_combine.1 h
    exact hw
  | negate r =>
    obtain ⟨-, rfl⟩ := effect_negate.1 h
    exact hw
  | extend =>
    obtain ⟨-, rfl⟩ := effect_extend.1 h
    exact hw
  | divide r =>
    obtain ⟨-, -, rfl⟩ := effect_divide.1 h
    exact hw
  | compare s r =>
    obtain ⟨-, -, rfl⟩ := effect_compare.1 h
    exact hw
  | select o s r =>
    obtain ⟨-, -, -, rfl⟩ := effect_select.1 h
    exact hw
  | grow =>
    obtain ⟨hlt, rfl⟩ := effect_grow.1 h
    exact hlt
  | shrink n =>
    obtain ⟨-, rfl⟩ := effect_shrink.1 h
    show (sh.words.drop (n + 1)).length ≤ wordLimit
    rw [List.length_drop]
    omega
  | nop =>
    obtain rfl := effect_nop.1 h
    exact hw
  | jump j l =>
    obtain ⟨-, -, rfl⟩ := effect_jump.1 h
    exact hw
  | exit =>
    obtain rfl := effect_exit.1 h
    exact hw
  | call f =>
    obtain ⟨-, -, -, -, -, rfl⟩ := effect_call.1 h
    exact hw

theorem Src.inRange_of_ok {s : Src} {r : Subroutine} {sh : Shape} (hr : r.arity < 2 ^ 59)
    (h : s.ok (setting prog mode r) sh = true) (hw : sh.words.length ≤ wordLimit) : s.InRange := by
  cases s with
  | imm w => trivial
  | reg q => trivial
  | slot n =>
    simp only [Src.ok, Src.isVariable] at h
    have hlt : ∃ k, under sh.words n = some k := by
      split at h
      · next hk => exact ⟨_, hk⟩
      · next hk => exact ⟨_, hk⟩
      · cases h
    obtain ⟨k, hk⟩ := hlt
    exact Nat.lt_of_lt_of_le (lt_of_under hk) hw
  | param n =>
    have hn : argumentRegisters.length + n < r.arity := of_decide_eq_true h
    show n < 2 ^ 59
    omega

/-- What an operation that is in order refers to exists. -/
theorem Op.resolved {o : Op} {r : Subroutine} {sh th : Shape} (hr : r.arity < 2 ^ 59)
    (h : o.effect (setting prog mode r) sh = some th) (hw : sh.words.length ≤ wordLimit) :
    o.Resolved prog r := by
  have hsrc : ∀ s : Src, s.ok (setting prog mode r) sh = true → s.InRange :=
    fun s hs => Src.inRange_of_ok hr hs hw
  cases o with
  | push s k => exact ⟨hsrc s (effect_push.1 h).1, nofun, nofun⟩
  | move s q => exact ⟨hsrc s (effect_move.1 h).1, nofun, nofun⟩
  | store q n => exact ⟨hsrc (.slot n) (effect_store.1 h).2.1, nofun, nofun⟩
  | combine f s q => exact ⟨hsrc s (effect_combine.1 h).1, nofun, nofun⟩
  | compare s q => exact ⟨hsrc s (effect_compare.1 h).1, nofun, nofun⟩
  | shrink n => exact ⟨Nat.lt_of_lt_of_le (effect_shrink.1 h).1 hw, nofun, nofun⟩
  | jump j l =>
    refine ⟨trivial, fun j' l' heq => ?_, nofun⟩
    cases heq
    obtain ⟨ks, hl, -⟩ := (effect_jump.1 h).2.1
    exact behind_of_mem_labels hl
  | call f =>
    refine ⟨trivial, nofun, fun f' heq => ?_⟩
    cases heq
    obtain ⟨n, hn, -⟩ := effect_call.1 h
    exact Option.isSome_iff_exists.2 ⟨n, hn⟩
  | _ => exact ⟨trivial, nofun, nofun⟩

theorem Check.resolved {r : Subroutine} {sh : Shape} {k : List Item} (hr : r.arity < 2 ^ 59)
    (h : Check (setting prog mode r) sh k) (hw : sh.words.length ≤ wordLimit) (o : Op)
    (ho : .op o ∈ k) : o.Resolved prog r := by
  induction k generalizing sh with
  | nil => cases ho
  | cons i k ih =>
    cases i with
    | label l ks =>
      obtain ⟨hle, hk⟩ := h
      rcases List.mem_cons.1 ho with heq | ho
      · cases heq
      · exact ih hk (kindsLe_length hle ▸ hw) ho
    | op o' =>
      obtain ⟨th, heff, hk⟩ := h
      rcases List.mem_cons.1 ho with heq | ho
      · cases heq
        exact Op.resolved hr heff hw
      · exact ih hk (Op.effect_words heff hw) ho

theorem blockWidth_blocks (m : Module) : blockWidth m.blocks = m.instructionCount := by
  unfold Module.instructionCount Module.instructions
  induction m.blocks with
  | nil => rfl
  | cons b bs ih => rw [blockWidth, ih, List.flatMap_cons, List.length_append]

/-- **A module that spells routines has code, and it consists of these routines.** -/
theorem implements_of_spelled (hs : Spelled prog m.blocks) (hn : WellNamed prog)
    (hin : InOrder prog mode) (hsize : m.instructionCount < 2 ^ 59)
    (harity : ∀ r ∈ prog, r.arity < 2 ^ 59) :
    ∃ code, Code.ofModule m = .ok code ∧ code.Implements prog := by
  have hnames := hs.names_eq
  have htable := get?_labelsFrom (by rw [hnames]; exact hn.nodup) (by rw [hnames]; exact hn.ne_empty) 0 .empty
  have hroutine : ∀ r ∈ prog, (labelsFrom 0 .empty m.blocks).get? r.name = some (start prog r.name) := by
    intro r hr
    obtain ⟨at?, hstarts, hoff⟩ := hs.starts hn.nodup hr
    rw [htable, hoff r.name List.mem_cons_self, hstarts.name]
    simp
  have hknows : ∀ r ∈ prog, Knows (labelsFrom 0 .empty m.blocks) prog r := by
    intro r hr
    obtain ⟨at?, hstarts, hoff⟩ := hs.starts hn.nodup hr
    refine ⟨fun l k hl => ?_, ?_, hroutine, fun f i hf => ?_⟩
    · have hmem : l ∈ r.names :=
        List.mem_cons_of_mem _ (List.mem_append_left _ (mem_labels_of_behind hl))
      rw [htable, hoff l hmem, hstarts.label l k hl]
      simp [pcOf, Nat.add_assoc]
    · have hmem : exitLabel r.name ∈ r.names :=
        List.mem_cons_of_mem _ (List.mem_append_right _ (List.mem_singleton.2 rfl))
      rw [htable, hoff _ hmem, hstarts.exit]
      simp [pcOf, Nat.add_assoc]
    · have hout : f ∉ m.blocks.map Block.name := by
        rw [hnames]
        intro hmem
        rw [hn.host f hmem] at hf
        cases hf
      rw [htable, offset?_eq_none hout]
      rfl
  have hdecode := decodeAll_program hs hknows fun r hr =>
    (hin.check r hr).resolved (harity r hr) (Nat.zero_le _)
  refine ⟨⟨_, labelsFrom 0 .empty m.blocks⟩, ?_, rfl, nodup_routine_names hn.nodup, hroutine, ?_, harity⟩
  · show (decodeAll _ (m.blocks.flatMap Block.code)).map _ = _
    rw [hdecode]
    rfl
  · rwa [← hs.width_eq, blockWidth_blocks]

end Modules

end MicroC
