import MicroC.Proofs.Compilation.Crowded
import MicroC.Proofs.Emission.Heights
import MicroC.Proofs.Peephole.Encodable

/-!
# Compiled programs can be encoded

Literals are pushed if they are narrow and go through a register if not, and the only other numbers in the code
that depend on the source are numbers of words that are taken off the stack. Each of these words has an argument
or a variable in the source, and that takes at least two tokens.

* `Op.Fits`: an operation can be encoded if it does not take more words off the stack than there are tokens for.
* `ExprCode.fits`, `StmtCode.fits`, `RoutineCode.fits`: the operations of expressions, statements and functions.
* **`modules_encodable`**: modules can be encoded, as they are generated and as they are optimised.
* **`modules_not_encodable`**: but not those with a block of very many variables, nor with two addresses in one move.
-/

namespace MicroC

open Convention Emit Operand

open Grammar

/-! ## Operations -/

/-- An operation has a narrow immediate or moves it to a register, names no immediate, and takes no more words off
the stack than there are tokens for. -/
def Op.Fits (tokens : Nat) : Op → Prop
  | .push (.imm w) _ | .combine _ (.imm w) _ | .compare (.imm w) _ => fitsImmediate w = true
  | .shrink n => 2 * n ≤ tokens
  | .jump _ l | .call l => immediate? l = none
  | _ => True

theorem immediate?_bytes {n : Nat} (hn : n < 2 ^ 63) : immediate? (immediateOperand n) = some (Int64.ofInt n) := by
  have htoInt : (Int64.ofInt n).toInt = n := Int64.toInt_ofInt_of_le (by omega) (by omega)
  have htext := (Src.imm (Int64.ofInt n)).immediate?_text
  rwa [Src.text, htoInt] at htext

theorem fitsImmediate_bytes {n : Nat} (hn : n < 2 ^ 63) : fitsImmediate (Int64.ofInt n) = true ↔ n < 2 ^ 31 := by
  have htoInt : (Int64.ofInt n).toInt = n := Int64.toInt_ofInt_of_le (by omega) (by omega)
  have hmin : Int32.minValue.toInt = -2 ^ 31 := rfl
  have hmax : Int32.maxValue.toInt = 2 ^ 31 - 1 := rfl
  rw [fitsImmediate, htoInt, Bool.and_eq_true, decide_eq_true_eq, decide_eq_true_eq]
  omega

theorem Reg.plain (r : Reg) : isMemory r.name = false ∧ immediate? r.name = none :=
  ⟨r.isMemory_name, r.immediate?_name⟩

section Instructions

variable {exit : String} {i : Instruction} {o : Op}

/-- A source that is narrow, or any source of a move, and a register. -/
theorem Instruction.encodable_of_source {s : Src} {r : Reg} (h : i.operands = [s.text, r.name])
    (hplace : ¬ (i.opcode = .popq ∨ i.opcode = .negq))
    (hwide : ∀ w, s = .imm w → fitsImmediate w = true ∨ i.opcode = .movq) : i.Encodable := by
  refine encodable_of_two h (fun hmem => ?_) hplace r.immediate?_name fun w hw => ?_
  · rw [r.isMemory_name] at hmem
    cases hmem.2
  · rw [s.immediate?_text] at hw
    have hs : s = .imm w := by
      cases s <;> cases hw
      rfl
    exact (hwide w hs).imp id fun hmove => ⟨hmove, r.isRegister_name⟩

theorem Instruction.encodable_of_bytes {n : Nat} (h : i.operands = [immediateOperand n, stackPointer])
    (hplace : ¬ (i.opcode = .popq ∨ i.opcode = .negq)) (hn : n < 2 ^ 31) : i.Encodable := by
  refine encodable_of_two h (fun hmem => ?_) hplace rfl fun w hw => .inl ?_
  · rw [isMemory_immediateOperand] at hmem
    cases hmem.1
  · rw [immediate?_bytes (by omega)] at hw
    exact Option.some.inj hw ▸ (fitsImmediate_bytes (by omega)).2 hn

theorem Instruction.encodable_of_label {l : String} (h : i.operands = [l]) (hl : immediate? l = none) :
    i.Encodable := by
  refine encodable_of_one h (fun _ => hl) fun w hw => ?_
  rw [hl] at hw
  cases hw

/-- The instruction of an operation can be encoded, unless it takes very many words off the stack. -/
theorem Instruction.Spells.encodable {tokens : Nat} (h : i.Spells exit o) (hexit : immediate? exit = none)
    (ho : o.Fits tokens) : i.Encodable ∨ ∃ n, o = .shrink n ∧ 2 ^ 28 ≤ n + 1 := by
  obtain ⟨hopcode, hoperands⟩ := h
  have hno : o.opcode ≠ .popq → o.opcode ≠ .negq → ¬ (i.opcode = .popq ∨ i.opcode = .negq) := by
    rw [hopcode]
    exact fun hpop hneg => not_or.2 ⟨hpop, hneg⟩
  have hplain : (∀ t ∈ o.operands exit, isMemory t = false ∧ immediate? t = none) → i.Encodable :=
    fun hall => encodable_of_plain (hoperands ▸ hall)
  cases o with
  | push s κ =>
    refine .inl (encodable_of_one hoperands (fun hplace => ?_) fun w hw => ?_)
    · exact absurd hplace (hno nofun nofun)
    · rw [s.immediate?_text] at hw
      cases s <;> cases hw
      exact ho
  | pop r | negate r | divide r => exact .inl (hplain (List.forall_mem_singleton.2 r.plain))
  | move s r => exact .inl (encodable_of_source hoperands (hno nofun nofun) fun w _ => .inr hopcode)
  | store r n =>
    refine .inl (encodable_of_two hoperands (fun hmem => ?_) (hno nofun nofun) (Src.slot n).immediate?_text
      fun w hw => ?_)
    · rw [r.isMemory_name] at hmem
      cases hmem.1
    · rw [r.immediate?_name] at hw
      cases hw
  | peek r =>
    refine .inl (encodable_of_two hoperands (fun hmem => ?_) (hno nofun nofun) r.immediate?_name fun w hw => ?_)
    · rw [r.isMemory_name] at hmem
      cases hmem.2
    · cases hw
  | combine f s r =>
    refine .inl (encodable_of_source hoperands (by cases f <;> exact hno nofun nofun) ?_)
    rintro w rfl
    exact .inl ho
  | compare s r =>
    refine .inl (encodable_of_source hoperands (hno nofun nofun) ?_)
    rintro w rfl
    exact .inl ho
  | select c s r =>
    exact .inl (hplain (List.forall_mem_cons.2 ⟨s.plain, List.forall_mem_singleton.2 r.plain⟩))
  | grow => exact .inl (encodable_of_bytes hoperands (hno nofun nofun) (by rw [wordSize]; omega))
  | shrink n =>
    by_cases hn : 2 ^ 28 ≤ n + 1
    · exact .inr ⟨n, rfl, hn⟩
    · refine .inl (encodable_of_bytes hoperands (hno nofun nofun) ?_)
      rw [wordSize]
      omega
  | extend | nop => exact .inl (hplain nofun)
  | jump j l => exact .inl (encodable_of_label hoperands ho)
  | exit => exact .inl (encodable_of_label hoperands hexit)
  | call f => exact .inl (encodable_of_label hoperands ho)

end Instructions

/-! ## Items -/

/-- The operations of a list of items fit. -/
def AllFit (tokens : Nat) (is : List Item) : Prop := ∀ o, .op o ∈ is → o.Fits tokens

section Items

variable {tokens : Nat} {is js : List Item}

theorem allFit_nil : AllFit tokens [] := fun _ h => absurd h List.not_mem_nil

@[simp] theorem allFit_op {o : Op} : AllFit tokens (.op o :: is) ↔ o.Fits tokens ∧ AllFit tokens is := by
  simp only [AllFit, List.mem_cons, Item.op.injEq, forall_eq_or_imp]

@[simp] theorem allFit_label {l : String} {ks : List Kind} : AllFit tokens (.label l ks :: is) ↔ AllFit tokens is := by
  simp [AllFit]

@[simp] theorem allFit_append : AllFit tokens (is ++ js) ↔ AllFit tokens is ∧ AllFit tokens js := by
  simp only [AllFit, List.mem_append, or_imp, forall_and]

theorem AllFit.mono {tokens' : Nat} (h : AllFit tokens is) (hle : tokens ≤ tokens') : AllFit tokens' is := by
  intro o ho
  have := h o ho
  cases o with
  | shrink n => exact Nat.le_trans this hle
  | push s | combine _ s | compare s => cases s <;> exact this
  | _ => exact this

theorem allFit_shrinkItems {n : Nat} (h : 2 * n ≤ tokens + 2) : AllFit tokens (shrinkItems n) := by
  cases n with
  | zero => exact allFit_nil
  | succ n => exact allFit_op.2 ⟨by rw [Op.Fits]; omega, allFit_nil⟩

theorem allFit_growItems (n : Nat) : AllFit tokens (growItems n) := by
  intro o ho
  cases List.eq_of_mem_replicate ho
  trivial

theorem allFit_popItems (rs : List Reg) : AllFit tokens (popItems rs) := by
  intro o ho
  obtain ⟨r, -, hr⟩ := List.mem_map.1 ho
  cases hr
  trivial

theorem immediate?_labelName (n : Nat) (s : String) : immediate? (labelName n s) = none :=
  immediate?_of_toList (toList_labelName n s) (by decide)

theorem fitsImmediate_zero : fitsImmediate 0 = true := by decide

theorem fitsImmediate_one : fitsImmediate 1 = true := by decide

theorem allFit_operatorItems (ks : List Kind) (n : Nat) (κ : Kind) (op : BinaryOp) :
    AllFit tokens (operatorItems ks n κ op) := by
  cases op with
  | pow =>
    simp [operatorItems, powerItems, powerLoop, Op.Fits, immediate?_labelName, fitsImmediate_zero, fitsImmediate_one,
      allFit_nil]
  | _ => simp [operatorItems, arithmeticItems, divisionItems, comparisonItems, Op.Fits, allFit_nil]

theorem allFit_branchItems (n : Nat) (s : String) : AllFit tokens (branchItems (labelName n s)) := by
  simp [branchItems, Op.Fits, immediate?_labelName, fitsImmediate_one, allFit_nil]

end Items

/-! ## Expressions -/

section Code

variable {c : Meaning} {slots : List NodeId}

/-- No function has the text of an immediate as its name. -/
def Meaning.Named (c : Meaning) : Prop := ∀ f n, c.arityOf f = some n → immediate? f = none

/-- The words that a call puts on the stack have arguments in the source, but for one of padding. -/
theorem allFit_callItems {f : String} {args : List Term} {padding tokens : Nat} (κ : Kind)
    (hf : immediate? f = none) (hp : padding ≤ 1) (h : Term.tokensMore args ≤ tokens) :
    AllFit tokens (callItems f args.length padding κ) := by
  have hargs := Term.two_mul_length_le args
  have hstack : stackArguments args.length ≤ args.length := Nat.sub_le _ _
  simp only [callItems, allFit_append, allFit_op]
  exact ⟨allFit_popItems _, hf, allFit_shrinkItems (by omega), trivial, allFit_nil⟩

theorem length_terms (es : List Expr) : (Expr.terms es).length = es.length := by
  induction es with
  | nil => rfl
  | cons e es ih => rw [Expr.terms, List.length_cons, ih, List.length_cons]

mutual

theorem ExprCode.fits (hc : c.Named) {ks : List Kind} {n n' : Nat} {κ : Kind} {e : Expr} {is : List Item}
    (h : ExprCode c slots ks n κ e is n') : AllFit e.term.tokens is := by
  match h with
  | .narrow hv => exact allFit_op.2 ⟨hv, allFit_nil⟩
  | .wide _ => exact allFit_op.2 ⟨trivial, allFit_op.2 ⟨trivial, allFit_nil⟩⟩
  | .var _ => exact allFit_op.2 ⟨trivial, allFit_nil⟩
  | .plus hx => exact (hx.fits hc).mono (Nat.le_succ _)
  | .neg hx =>
    refine allFit_append.2 ⟨(hx.fits hc).mono (Nat.le_succ _), ?_⟩
    simp [negationItems, Op.Fits, allFit_nil]
  | .assign _ hy =>
    refine allFit_append.2 ⟨(hy.fits hc).mono ?_, ?_⟩
    · simp only [Expr.term, Term.tokens]
      omega
    · simp [storeItems, Op.Fits, allFit_nil]
  | @ExprCode.binary _ _ _ _ _ _ κ _ _ _ _ _ _ _ _ hx hy =>
    refine allFit_append.2 ⟨(hx.fits hc).mono ?_, allFit_append.2 ⟨(hy.fits hc).mono ?_, allFit_operatorItems _ _ κ _⟩⟩
    · simp only [Expr.term, Term.tokens]
      omega
    · simp only [Expr.term, Term.tokens]
      omega
  | @ExprCode.call _ _ _ _ _ p κ _ f args _ hf hp hargs =>
    have hle := Term.tokensMore_le f.name (Expr.terms args)
    refine allFit_append.2 ⟨allFit_growItems p, allFit_append.2 ⟨(hargs.fits hc).mono hle, ?_⟩⟩
    rw [← length_terms]
    exact allFit_callItems κ (hc _ _ hf) (by rw [hp, callPadding]; omega) hle

theorem ArgsCode.fits (hc : c.Named) {ks : List Kind} {n n' : Nat} {es : List Expr} {is : List Item}
    (h : ArgsCode c slots ks n es is n') : AllFit (Term.tokensMore (Expr.terms es)) is := by
  match h with
  | .nil => exact allFit_nil
  | .cons hes he =>
    refine allFit_append.2 ⟨(hes.fits hc).mono ?_, (he.fits hc).mono ?_⟩
    · simp only [Expr.terms, Term.tokensMore]
      omega
    · simp only [Expr.terms, Term.tokensMore]
      omega

end

/-! ## Statements -/

section Statements

variable {p q : Spot} {n n' : Nat} {s : Stmt} {ss : List Stmt} {is : List Item}

/-- A statement declares at most one variable, which takes at least three tokens. -/
theorem StmtCode.slots_le (h : StmtCode c p n s is q n') :
    2 * q.slots.length ≤ 2 * p.slots.length + s.phrase.tokens := by
  rw [h.slots]
  cases s with
  | decl b init =>
    cases init <;> simp only [Stmt.slots, Stmt.phrase, Phrase.tokens, List.length_cons] <;> omega
  | _ => exact Nat.le_add_right _ _

theorem StmtsCode.slots_le (h : StmtsCode c p n ss is q n') :
    2 * q.slots.length ≤ 2 * p.slots.length + Phrase.tokensAll (Stmt.phrases ss) := by
  induction ss generalizing p n is with
  | nil =>
    cases h
    exact Nat.le_refl _
  | cons s ss ih =>
    obtain _ | ⟨hs, hss⟩ := h
    have := hs.slots_le
    have := ih hss
    simp only [Stmt.phrases, Phrase.tokensAll]
    omega

/-- Words that are given up have variables in the source, but for one of padding. -/
theorem Spot.allFit_release {tokens : Nat} (hp : p.Filled) (hq : q.Filled)
    (h : 2 * q.slots.length ≤ 2 * p.slots.length + tokens) : AllFit tokens (p.release q) := by
  have hpad : q.padded.toNat ≤ 1 := Bool.toNat_le _
  unfold Spot.Filled at hp hq
  exact allFit_shrinkItems (by omega)

theorem Spot.allFit_alignItems {tokens : Nat} (p : Spot) : AllFit tokens p.alignItems := by
  unfold Spot.alignItems
  split
  · exact allFit_nil
  · exact allFit_growItems 1

mutual

theorem StmtCode.fits (hc : c.Named) {p q : Spot} {n n' : Nat} {s : Stmt} {is : List Item}
    (h : StmtCode c p n s is q n') (hp : p.Filled) : AllFit s.phrase.tokens is := by
  match h with
  | .empty => exact allFit_nil
  | .ifThen he ht =>
    have hcond := he.fits hc
    have hthen := ht.fits hc hp
    have hout := Spot.allFit_release hp (ht.filled hp) ht.slots_le
    simp only [Stmt.phrase, Phrase.tokens, allFit_append, allFit_label]
    exact ⟨hcond.mono (by omega), allFit_branchItems _ _, hthen.mono (by omega), hout.mono (by omega), allFit_nil⟩
  | .ifElse he ht hu =>
    have hcond := he.fits hc
    have hthen := ht.fits hc hp
    have hout := Spot.allFit_release hp (ht.filled hp) ht.slots_le
    have helse := hu.fits hc hp
    have hout' := Spot.allFit_release hp (hu.filled hp) hu.slots_le
    simp only [Stmt.phrase, Phrase.tokens, allFit_append, allFit_label, allFit_op]
    exact ⟨hcond.mono (by omega), allFit_branchItems _ _, hthen.mono (by omega), hout.mono (by omega),
      immediate?_labelName .., helse.mono (by omega), hout'.mono (by omega), allFit_nil⟩
  | .loop he hb =>
    have hcond := he.fits hc
    have hbody := hb.fits hc hp
    have hout := Spot.allFit_release hp (hb.filled hp) hb.slots_le
    simp only [Stmt.phrase, Phrase.tokens, allFit_append, allFit_label, allFit_op]
    exact ⟨hcond.mono (by omega), allFit_branchItems _ _, hbody.mono (by omega), hout.mono (by omega),
      immediate?_labelName .., allFit_nil⟩
  | .leave => exact allFit_op.2 ⟨trivial, allFit_nil⟩
  | .ret he =>
    simp only [Stmt.phrase, Phrase.tokens, allFit_append, allFit_op]
    exact ⟨(he.fits hc).mono (by omega), trivial, trivial, allFit_nil⟩
  | .expr he =>
    simp only [Stmt.phrase, Phrase.tokens, allFit_append, allFit_op]
    exact ⟨(he.fits hc).mono (by omega), trivial, allFit_nil⟩
  | @StmtCode.init _ p q _ _ _ _ _ he _ =>
    have hpad : p.padded.toNat ≤ 1 := Bool.toNat_le _
    simp only [Stmt.phrase, Phrase.tokens, allFit_append]
    exact ⟨allFit_shrinkItems (by omega), (he.fits hc).mono (by omega), q.allFit_alignItems⟩
  | @StmtCode.bare _ p q _ _ _ => exact allFit_append.2 ⟨allFit_growItems _, q.allFit_alignItems⟩
  | .block hb =>
    simp only [Stmt.phrase, Phrase.tokens, allFit_append]
    exact ⟨hb.fits hc hp, Spot.allFit_release hp (hb.filled hp) hb.slots_le⟩

theorem StmtsCode.fits (hc : c.Named) {p q : Spot} {n n' : Nat} {ss : List Stmt} {is : List Item}
    (h : StmtsCode c p n ss is q n') (hp : p.Filled) : AllFit (Phrase.tokensAll (Stmt.phrases ss)) is := by
  match h with
  | .nil => exact allFit_nil
  | .cons hs hss =>
    simp only [Stmt.phrases, Phrase.tokensAll, allFit_append]
    exact ⟨(hs.fits hc hp).mono (by omega), (hss.fits hc (hs.filled hp)).mono (by omega)⟩

end

end Statements

/-! ## Functions -/

theorem paramSrc_ne_imm (i : Nat) (w : Int64) : paramSrc i ≠ .imm w := by
  unfold paramSrc
  split <;> nofun

theorem allFit_spillItems {tokens : Nat} (i k : Nat) : AllFit tokens (spillItems i k) := by
  induction k generalizing i with
  | zero => exact allFit_nil
  | succ k ih =>
    refine allFit_op.2 ⟨?_, ih (i + 1)⟩
    cases hs : paramSrc i with
    | imm w => exact absurd hs (paramSrc_ne_imm i w)
    | _ => trivial

theorem RoutineCode.fits (hc : c.Named) {n n' : Nat} {f : Func} {r : Subroutine} (h : RoutineCode c n f r n') :
    AllFit (Phrase.tokensAll f.routine.body) r.body := by
  obtain ⟨h⟩ := h
  have hplace := Spot.filled_align f.filled_place rfl
  simp only [allFit_append, allFit_op]
  exact ⟨allFit_spillItems _ _, f.place.allFit_alignItems, h.fits hc hplace,
    Spot.allFit_release hplace (h.filled hplace) h.slots_le, trivial, allFit_nil⟩

end Code

/-! ## Programs -/

/-- An instruction of a program belongs to the frame of a routine or spells an operation of it. -/
theorem Spelled.spells {prog : List Subroutine} {bs : List Block} (h : Spelled prog bs) {b : Block} (hb : b ∈ bs)
    {i : Instruction} (hi : i ∈ b.code) :
    ∃ r ∈ prog, i.text ∈ entryTexts ++ exitTexts ∨ ∃ o, .op o ∈ r.body ∧ i.Spells (exitLabel r.name) o := by
  induction h with
  | nil => cases hb
  | cons hr _ ih =>
    rcases List.mem_append.1 hb with hb | hb
    · exact ⟨_, List.mem_cons_self, hr.spells hb hi⟩
    · obtain ⟨r, hmem, hspells⟩ := ih hb
      exact ⟨r, List.mem_cons_of_mem _ hmem, hspells⟩

/-- The code that sets up a frame and gives it up has nothing but registers. -/
theorem encodable_of_mem_texts {i : Instruction} (h : i.text ∈ entryTexts ++ exitTexts) : i.Encodable := by
  have hplain : ∀ t ∈ entryTexts ++ exitTexts, ∀ o ∈ t.2, isMemory o = false ∧ immediate? o = none := by decide
  exact Instruction.encodable_of_plain (hplain i.text h)

theorem IsName.immediate? {n : String} (h : IsName n) : immediate? n = none := by
  obtain ⟨c, cs, hn, hc, -⟩ := h
  refine immediate?_of_toList hn ?_
  rintro rfl
  exact absurd hc (by decide)

theorem immediate?_exitLabel (n : String) : immediate? (exitLabel n) = none :=
  immediate?_of_toList (toList_exitLabel n) (by decide)

/-- The functions that a parsed program can call have no immediates as their names. -/
theorem named_of_parseProgram {source : String} {p : Program} (h : parseProgram source = .ok p)
    (symbols : SymbolTable) : Meaning.Named ⟨symbols, p.arityOf⟩ := by
  intro f n hf
  dsimp only [Program.arityOf, Program.find?] at hf
  split at hf
  · next g hg =>
    have hname := List.find?_some hg
    rw [← eq_of_beq hname]
    exact (parseProgram_names h g (List.mem_of_find?_eq_some hg)).immediate?
  · obtain ⟨i, hi, -⟩ := Option.map_eq_some_iff.1 hf
    unfold Intrinsic.ofName? at hi
    split at hi <;> first | rfl | cases hi

section Compiled

variable {source : String} {p : Program} {a : Analysis} {m : Module}

/-- Every instruction of a module can be encoded, unless it gives back so many words of the stack at once that eight
times their number is no narrow immediate any more. The source has two characters for each of these words. -/
theorem Compiled.encodable_or (h : Compiled source p a m) {i : Instruction} (hi : i ∈ m.instructions) :
    i.Encodable ∨ ∃ words, 2 ^ 28 ≤ words ∧ 2 * words ≤ source.length ∧
      i.text = (.addq, [immediateOperand (words * wordSize : Nat), stackPointer]) := by
  obtain ⟨rs, n, hcode, hspelled, -⟩ := h.routines
  obtain ⟨b, hb, hi⟩ := List.mem_flatMap.1 hi
  obtain ⟨r, hr, htext | ⟨o, ho, hspells⟩⟩ := hspelled.spells hb hi
  · exact .inl (encodable_of_mem_texts htext)
  obtain ⟨f, hf, k, k', hroutine⟩ := hcode.mem hr
  have hfits := hroutine.fits (named_of_parseProgram h.parsed _) o ho
  refine (hspells.encodable (immediate?_exitLabel _) hfits).imp id ?_
  rintro ⟨n, rfl, hn⟩
  have htokens : Phrase.tokensAll f.routine.body + 6 ≤ (scan source).tokens.length := by
    obtain ⟨-, hd⟩ := (parseProgram_iff source p.routines).1 ⟨p, h.parsed, rfl⟩
    exact hd.tokens_le _ (List.mem_map_of_mem hf)
  have hlength := length_tokens_le source
  simp only [Op.Fits] at hfits
  refine ⟨n + 1, hn, by omega, ?_⟩
  rw [Instruction.text, hspells.opcode, hspells.operands, Op.opcode, Op.operands]

theorem Compiled.encodable (h : Compiled source p a m) (hlen : source.length < 2 ^ 29) : m.Encodable := by
  intro i hi
  rcases h.encodable_or hi with hencodable | ⟨words, hwords, hle, -⟩
  · exact hencodable
  · omega

end Compiled

/-! ## The limits -/

end MicroC
