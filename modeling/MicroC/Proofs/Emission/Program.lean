import Mathlib.Data.List.Forall2
import MicroC.Proofs.Emission.Writing

/-!
# Programs as they are emitted

* `Spot.frame`, `Spot.Filled`: the frame at a place.
* `stmtCode_of_emit`: what is emitted for a statement are its items.
* **`programCode_of_generate`**: the module of a program spells the routines of its functions.
-/

namespace MicroC

open Convention Emit

/-! ## Statements -/

/-- The frame at a place. -/
def Spot.frame (p : Spot) : Frame := ⟨p.slots, p.padded, 0⟩

/-- Every word is that of a variable or padding. -/
def Spot.Filled (p : Spot) : Prop := p.words.length = p.slots.length + p.padded.toNat

section Statements

variable {exit : String} {a : Analysis} {arityOf : String → Option Nat} {l : Layout} {p : Spot}

theorem Spot.Filled.depth (h : p.Filled) : p.words.length = p.frame.depth := h

theorem Spot.Filled.length_base (h : p.Filled) : p.base.length = p.slots.length := by
  unfold Spot.Filled at h
  unfold Spot.base
  cases hp : p.padded with
  | false => simpa [hp] using h
  | true => simp [hp] at h ⊢; omega

theorem Spot.filled_declare (h : p.Filled) (d : NodeId) (κ : Kind) :
    (p.declare d (κ :: p.base)).Filled := by
  simp [Spot.Filled, Spot.declare, h.length_base]

theorem Spot.filled_align (h : p.Filled) (hp : p.padded = false) : p.align.Filled := by
  unfold Spot.align
  split
  · exact h
  · simpa [Spot.Filled, hp] using h

theorem emits_alignFrame (h : p.Filled) (n : Nat) :
    Emits exit alignFrame ⟨p.frame, n⟩ p.alignItems ⟨p.align.frame, n⟩ := by
  have haligned : p.frame.isAligned = p.isAligned := by
    rw [Frame.isAligned, ← h.depth]
    rfl
  refine .ofFrame ?_
  dsimp only
  rw [haligned, Spot.alignItems, Spot.align]
  by_cases ha : p.isAligned = true
  · rw [if_pos ha, if_pos ha, if_pos ha]
    exact emits_pure
  · rw [if_neg ha, if_neg ha, if_neg ha]
    exact (emits_growStack _).bind (emits_modifyFrame _)

theorem emits_branchUnlessTrue (target : String) :
    Emits exit (branchUnlessTrue target) l (branchItems target) (l.pop 1) :=
  (emits_pop .rax _).bind <|
    (emits_instruction (.compare (.imm 1) .rax) _ rfl (by simp [Op.operands]; rfl)).bind
      (emits_instruction (.jump .unequal target) _ rfl rfl)

theorem expectCondition_eq_ok {e : Expr} {x : Emit Unit} {out : Emitted Unit}
    (h : (expectCondition a e >>= fun _ => x) l = .ok out) : x l = .ok out := by
  obtain ⟨a₀, b, h0, hb, rfl⟩ := Emit.bind_eq_ok.1 h
  obtain ⟨⟨ty, ls, l'⟩, c, hty, hc, rfl⟩ := Emit.bind_eq_ok.1 h0
  obtain ⟨-, heq⟩ := typeOf_eq_ok hty
  cases heq
  match ty, hc with
  | .scalar .int, hc =>
    obtain rfl := Emit.pure_eq_ok.1 hc
    exact hb

theorem expectInt_eq_ok {b : Binder} {what : Ty → Construct} {x : Emit Unit} {out : Emitted Unit}
    (h : (expectInt a b what >>= fun _ => x) l = .ok out) : x l = .ok out := by
  obtain ⟨a₀, b, h0, hb, rfl⟩ := Emit.bind_eq_ok.1 h
  obtain ⟨⟨ty, ls, l'⟩, c, hty, hc, rfl⟩ := Emit.bind_eq_ok.1 h0
  obtain ⟨-, heq⟩ := typeOf_eq_ok hty
  cases heq
  match ty, hc with
  | .scalar .int, hc =>
    obtain rfl := Emit.pure_eq_ok.1 hc
    exact hb

theorem scope_eq_ok {body : Emit Unit} {n : Nat} {out : Emitted Unit} (hf : p.Filled)
    (h : scope body ⟨p.frame, n⟩ = .ok out) :
    ∃ mid, body ⟨p.frame, n⟩ = .ok mid ∧ ∀ is p', Written exit mid.lines is →
      mid.layout.frame = p'.frame → p'.Filled →
      out.layout = ⟨p.frame, mid.layout.labels⟩ ∧ Written exit out.lines (is ++ p.release p') := by
  unfold scope at h
  obtain ⟨f, b, hframe, hb, rfl⟩ := Emit.bind_eq_ok.1 h
  cases hframe
  obtain ⟨mid, c, hmid, hc, rfl⟩ := Emit.bind_eq_ok.1 hb
  refine ⟨mid, hmid, fun is p' hw hframe hf' => ?_⟩
  obtain ⟨f', d, hframe', hd, rfl⟩ := Emit.bind_eq_ok.1 hc
  cases hframe'
  have hwords : p'.frame.releasedWords p.frame = p'.words.length - p.words.length := by
    rw [hf, hf']
    rfl
  have hrelease : p'.frame.release p.frame = p.frame := rfl
  rw [hframe, hwords] at hd
  obtain ⟨hl, hw'⟩ := ((emits_modifyFrame _).bind (emits_shrinkStack _ _)).eq hd
  dsimp only at hl
  rw [hframe, hrelease] at hl
  exact ⟨hl, hw.append hw'⟩

theorem scope_bind_eq_ok {body x : Emit Unit} {n : Nat} {out : Emitted Unit} (hf : p.Filled)
    (h : (scope body >>= fun _ => x) ⟨p.frame, n⟩ = .ok out) :
    ∃ mid, body ⟨p.frame, n⟩ = .ok mid ∧ ∀ is p', Written exit mid.lines is →
      mid.layout.frame = p'.frame → p'.Filled →
      ∃ b, x ⟨p.frame, mid.layout.labels⟩ = .ok b ∧ out.layout = b.layout ∧
        ∀ js, Written exit b.lines js → Written exit out.lines (is ++ (p.release p' ++ js)) := by
  obtain ⟨a, b, ha, hb, rfl⟩ := Emit.bind_eq_ok.1 h
  obtain ⟨mid, hmid, hrest⟩ := scope_eq_ok hf ha
  refine ⟨mid, hmid, fun is p' hw hframe hf' => ?_⟩
  obtain ⟨hl, hw'⟩ := hrest is p' hw hframe hf'
  rw [hl] at hb
  refine ⟨b, hb, rfl, fun js hjs => ?_⟩
  rw [← List.append_assoc]
  exact hw'.append hjs

theorem condition_bind_eq_ok {e : Expr} {x : Emit Unit} {n : Nat} {out : Emitted Unit}
    (harity : Resolves a arityOf) (hf : p.Filled) (hc : e.Called a.functions a.types)
    (h : (Emit.expr a e >>= fun _ => x) ⟨p.frame, n⟩ = .ok out) :
    ∃ is n' b, ExprCode ⟨a.symbols, arityOf⟩ p.slots p.words n .temp e is n' ∧
      x ⟨p.frame.pushTemps 1, n'⟩ = .ok b ∧ out.layout = b.layout ∧
        ∀ js, Written exit b.lines js → Written exit out.lines (is ++ js) := by
  obtain ⟨b, b', hb, hb', rfl⟩ := Emit.bind_eq_ok.1 h
  obtain ⟨is, he, hframe, hw⟩ := exprCode_of_emit harity .temp hf.depth hc hb
  have hlayout : b.layout = ⟨p.frame.pushTemps 1, b.layout.labels⟩ := by rw [← hframe]
  rw [hlayout] at hb'
  exact ⟨is, _, b', he, hb', rfl, fun js hjs => hw.append hjs⟩

theorem reserve_some_eq_ok {b : Binder} {e : Expr} {n : Nat} {out : Emitted Unit}
    (harity : Resolves a arityOf) (hf : p.Filled) (hc : e.Called a.functions a.types)
    (h : reserve a b (some e) ⟨p.frame, n⟩ = .ok out) :
    ∃ is, ExprCode ⟨a.symbols, arityOf⟩ p.slots p.base n .var e is out.layout.labels ∧
      out.layout.frame = ⟨p.slots, false, 0⟩ ∧
        Written exit out.lines (shrinkItems p.padded.toNat ++ is) := by
  obtain ⟨f, c, hframe, hcode, rfl⟩ := Emit.bind_eq_ok.1 h
  cases hframe
  -- Both cases go on with the expression in a frame without padding.
  have hexpr : ∀ {x : Emitted Unit},
      (Emit.expr a e >>= fun _ => modifyFrame (·.popTemps 1)) ⟨⟨p.slots, false, 0⟩, n⟩ = .ok x →
      ∃ is, ExprCode ⟨a.symbols, arityOf⟩ p.slots p.base n .var e is x.layout.labels ∧
        x.layout.frame = ⟨p.slots, false, 0⟩ ∧ Written exit x.lines is := by
    intro x hx
    obtain ⟨y, z, hy, hz, rfl⟩ := Emit.bind_eq_ok.1 hx
    cases hz
    obtain ⟨is, he, hframe, hw⟩ := exprCode_of_emit harity .var hf.length_base hc hy
    refine ⟨is, he, ?_, by simpa using hw⟩
    show y.layout.frame.popTemps 1 = _
    rw [hframe, Frame.popTemps_pushTemps]
  dsimp only at hcode
  cases hp : p.padded with
  | true =>
    rw [show p.frame.padded = true from hp] at hcode
    obtain ⟨c₁, hc₁, hl₁, hw₁⟩ := (emits_shrinkStack 1 _).goes_on hcode
    obtain ⟨c₂, hc₂, hl₂, hw₂⟩ := (emits_modifyFrame _).goes_on hc₁
    obtain ⟨is, he, hframe, hw⟩ := hexpr hc₂
    rw [hl₁, hl₂]
    exact ⟨is, he, hframe, hw₁ _ (hw₂ _ hw)⟩
  | false =>
    rw [show p.frame.padded = false from hp] at hcode
    rw [show p.frame = ⟨p.slots, false, 0⟩ by rw [Spot.frame, hp]] at hcode
    exact hexpr hcode

theorem emits_reserve_none (b : Binder) (n : Nat) :
    Emits exit (reserve a b none) ⟨p.frame, n⟩ (growItems (1 - p.padded.toNat)) ⟨⟨p.slots, false, 0⟩, n⟩ := by
  refine .ofFrame ?_
  dsimp only
  cases hp : p.padded with
  | true =>
    rw [if_pos (show p.frame.padded = true from hp)]
    exact emits_modifyFrame _
  | false =>
    rw [if_neg (show ¬ p.frame.padded = true by simp [Spot.frame, hp]), Spot.frame, hp]
    exact emits_growStack _

mutual

/-- **What is emitted for a statement are its items.** -/
theorem stmtCode_of_emit (harity : Resolves a arityOf) {s : Stmt} {p : Spot} {n : Nat}
    {out : Emitted Unit} (hf : p.Filled) (hc : s.Called a.functions a.types)
    (h : Emit.stmt a exit s ⟨p.frame, n⟩ = .ok out) :
    ∃ is q, StmtCode ⟨a.symbols, arityOf⟩ p n s is q out.layout.labels ∧
      out.layout.frame = q.frame ∧ q.Filled ∧ Written exit out.lines is := by
  match s with
  | .empty s =>
    obtain rfl := Emit.pure_eq_ok.1 h
    exact ⟨[], p, .empty, rfl, hf, .nil⟩
  | .ite s e t none =>
    obtain ⟨is, n₁, b, he, hb, hl, hw⟩ :=
      condition_bind_eq_ok harity hf hc.1 (expectCondition_eq_ok h)
    have hb := freshLabel_bind_eq_ok (freshLabel_bind_eq_ok hb)
    obtain ⟨b₁, hb₁, hl₁, hw₁⟩ := (emits_branchUnlessTrue _).goes_on hb
    obtain ⟨b₂, hb₂, hl₂, hw₂⟩ := (emits_label _ _ p.words).goes_on hb₁
    rw [Layout.pop, Frame.popTemps_pushTemps] at hb₂
    obtain ⟨mid, hmid, hrest⟩ := scope_bind_eq_ok hf hb₂
    obtain ⟨js, q, ht, hframe, hf', hwt⟩ := stmtCode_of_emit harity hf hc.2 hmid
    obtain ⟨b₃, hb₃, hl₃, hw₃⟩ := hrest js q hwt hframe hf'
    obtain ⟨hl₄, hw₄⟩ := (emits_label _ _ p.words).eq hb₃
    rw [hl, hl₁, hl₂, hl₃, hl₄]
    exact ⟨_, p, .ifThen he ht, rfl, hf, hw _ (hw₁ _ (hw₂ _ (hw₃ _ hw₄)))⟩
  | .ite s e t (some u) =>
    obtain ⟨is, n₁, b, he, hb, hl, hw⟩ :=
      condition_bind_eq_ok harity hf hc.1 (expectCondition_eq_ok h)
    have hb := freshLabel_bind_eq_ok (freshLabel_bind_eq_ok (freshLabel_bind_eq_ok hb))
    obtain ⟨b₁, hb₁, hl₁, hw₁⟩ := (emits_branchUnlessTrue _).goes_on hb
    obtain ⟨b₂, hb₂, hl₂, hw₂⟩ := (emits_label _ _ p.words).goes_on hb₁
    rw [Layout.pop, Frame.popTemps_pushTemps] at hb₂
    obtain ⟨mid, hmid, hrest⟩ := scope_bind_eq_ok hf hb₂
    obtain ⟨js, q, ht, hframe, hf', hwt⟩ := stmtCode_of_emit harity hf hc.2.1 hmid
    obtain ⟨b₃, hb₃, hl₃, hw₃⟩ := hrest js q hwt hframe hf'
    obtain ⟨b₄, hb₄, hl₄, hw₄⟩ :=
      (emits_instruction (.jump .always (labelName (n₁ + 2) "endif")) _ rfl rfl).goes_on hb₃
    obtain ⟨b₅, hb₅, hl₅, hw₅⟩ := (emits_label _ _ p.words).goes_on hb₄
    obtain ⟨mid', hmid', hrest'⟩ := scope_bind_eq_ok hf hb₅
    obtain ⟨ls, r, hu, hframe', hf'', hwu⟩ := stmtCode_of_emit harity hf hc.2.2 hmid'
    obtain ⟨b₆, hb₆, hl₆, hw₆⟩ := hrest' ls r hwu hframe' hf''
    obtain ⟨hl₇, hw₇⟩ := (emits_label _ _ p.words).eq hb₆
    rw [hl, hl₁, hl₂, hl₃, hl₄, hl₅, hl₆, hl₇]
    exact ⟨_, p, .ifElse he ht hu, rfl, hf,
      hw _ (hw₁ _ (hw₂ _ (hw₃ _ (hw₄ _ (hw₅ _ (hw₆ _ hw₇))))))⟩
  | .loop s e b =>
    have hb := freshLabel_bind_eq_ok (freshLabel_bind_eq_ok (freshLabel_bind_eq_ok
      (expectCondition_eq_ok h)))
    obtain ⟨b₀, hb₀, hl₀, hw₀⟩ := (emits_label _ _ p.words).goes_on hb
    obtain ⟨is, n₁, b₁, he, hb₁, hl₁, hw₁⟩ := condition_bind_eq_ok harity hf hc.1 hb₀
    obtain ⟨b₂, hb₂, hl₂, hw₂⟩ := (emits_branchUnlessTrue _).goes_on hb₁
    obtain ⟨b₃, hb₃, hl₃, hw₃⟩ := (emits_label _ _ p.words).goes_on hb₂
    rw [Layout.pop, Frame.popTemps_pushTemps] at hb₃
    obtain ⟨mid, hmid, hrest⟩ := scope_bind_eq_ok hf hb₃
    obtain ⟨js, q, ht, hframe, hf', hwt⟩ := stmtCode_of_emit harity hf hc.2 hmid
    obtain ⟨b₄, hb₄, hl₄, hw₄⟩ := hrest js q hwt hframe hf'
    obtain ⟨hl₅, hw₅⟩ := ((emits_instruction (.jump .always (labelName n "while_cond")) _ rfl rfl).bind
      (emits_label _ _ p.words)).eq hb₄
    rw [hl₀, hl₁, hl₂, hl₃, hl₄, hl₅]
    exact ⟨_, p, .loop he ht, rfl, hf, hw₀ _ (hw₁ _ (hw₂ _ (hw₃ _ (hw₄ _ hw₅))))⟩
  | .ret s none =>
    obtain ⟨hl, hw⟩ := (emits_instruction .exit _ rfl rfl).eq h
    rw [hl]
    exact ⟨[.op .exit], p, .leave, rfl, hf, hw⟩
  | .ret s (some e) =>
    obtain ⟨b, b', hb, hb', rfl⟩ := Emit.bind_eq_ok.1 h
    obtain ⟨is, he, hframe, hw⟩ := exprCode_of_emit harity .temp hf.depth hc hb
    obtain ⟨hl, hw'⟩ := ((emits_pop .rax _).bind (emits_instruction .exit _ rfl rfl)).eq hb'
    rw [hl]
    refine ⟨_, p, .ret he, ?_, hf, hw.append hw'⟩
    show b.layout.frame.popTemps 1 = _
    rw [hframe, Frame.popTemps_pushTemps]
  | .expr s e =>
    obtain ⟨b, b', hb, hb', rfl⟩ := Emit.bind_eq_ok.1 h
    obtain ⟨is, he, hframe, hw⟩ := exprCode_of_emit harity .temp hf.depth hc hb
    obtain ⟨hl, hw'⟩ := (emits_pop .rax _).eq hb'
    rw [hl]
    refine ⟨_, p, .expr he, ?_, hf, hw.append hw'⟩
    show b.layout.frame.popTemps 1 = _
    rw [hframe, Frame.popTemps_pushTemps]
  | .decl b init =>
    obtain ⟨c, c', hc₁, hc₂, rfl⟩ := Emit.bind_eq_ok.1 (expectInt_eq_ok h)
    cases init with
    | none =>
      obtain ⟨hl, hw⟩ := (emits_reserve_none b n).eq hc₁
      have hq := Spot.filled_declare hf b.site.id .pad
      rw [hl] at hc₂
      obtain ⟨hl', hw'⟩ := ((emits_modifyFrame _).bind (emits_alignFrame hq n)).eq hc₂
      rw [hl']
      exact ⟨_, _, .bare rfl, rfl, Spot.filled_align hq rfl, hw.append hw'⟩
    | some e =>
      obtain ⟨is, he, hframe, hw⟩ := reserve_some_eq_ok harity hf hc hc₁
      have hlayout : c.layout = ⟨⟨p.slots, false, 0⟩, c.layout.labels⟩ := by rw [← hframe]
      have hq := Spot.filled_declare hf b.site.id .var
      rw [hlayout] at hc₂
      obtain ⟨hl', hw'⟩ := ((emits_modifyFrame _).bind (emits_alignFrame hq _)).eq hc₂
      rw [hl']
      refine ⟨_, _, .init he rfl, rfl, Spot.filled_align hq rfl, ?_⟩
      rw [← List.append_assoc]
      exact hw.append hw'
  | .array b k => cases h
  | .block s body =>
    obtain ⟨mid, hmid, hrest⟩ := scope_eq_ok hf h
    obtain ⟨is, q, hs, hframe, hf', hw⟩ := stmtsCode_of_emit harity hf hc hmid
    obtain ⟨hl, hw'⟩ := hrest is q hw hframe hf'
    rw [hl]
    exact ⟨_, p, .block hs, rfl, hf, hw'⟩

theorem stmtsCode_of_emit (harity : Resolves a arityOf) {ss : List Stmt} {p : Spot} {n : Nat}
    {out : Emitted Unit} (hf : p.Filled) (hc : Stmt.CalledAll a.functions a.types ss)
    (h : Emit.stmts a exit ss ⟨p.frame, n⟩ = .ok out) :
    ∃ is q, StmtsCode ⟨a.symbols, arityOf⟩ p n ss is q out.layout.labels ∧
      out.layout.frame = q.frame ∧ q.Filled ∧ Written exit out.lines is := by
  match ss with
  | [] =>
    obtain rfl := Emit.pure_eq_ok.1 h
    exact ⟨[], p, .nil, rfl, hf, .nil⟩
  | s :: ss =>
    obtain ⟨b, b', hb, hb', rfl⟩ := Emit.bind_eq_ok.1 h
    obtain ⟨is, q, hs, hframe, hf', hw⟩ := stmtCode_of_emit harity hf hc.1 hb
    have hlayout : b.layout = ⟨q.frame, b.layout.labels⟩ := by rw [← hframe]
    rw [hlayout] at hb'
    obtain ⟨js, r, hss, hframe', hf'', hw'⟩ := stmtsCode_of_emit harity hf' hc.2 hb'
    exact ⟨is ++ js, r, .cons hs hss, hframe', hf'', hw.append hw'⟩

end

end Statements

/-! ## Functions -/

/-- An emission puts instructions down and nothing else. -/
def Puts (x : Emit Unit) (texts : List (Opcode × List String)) : Prop :=
  ∀ l, ∃ is : List Instruction, x l = .ok ⟨(), is.map .code, l⟩ ∧ is.map Instruction.text = texts

section Functions

variable {exit : String} {a : Analysis} {arityOf : String → Option Nat} {l : Layout} {x y : Emit Unit}
  {ts us : List (Opcode × List String)}

theorem Puts.bind (h : Puts x ts) (h' : Puts y us) : Puts (x >>= fun _ => y) (ts ++ us) := by
  intro l
  obtain ⟨is, hx, his⟩ := h l
  obtain ⟨js, hy, hjs⟩ := h' l
  refine ⟨is ++ js, Emit.bind_eq_ok.2 ⟨_, _, hx, hy, ?_⟩, ?_⟩
  · rw [List.map_append]
  · rw [List.map_append, his, hjs]

theorem puts_instruction (opcode : Opcode) (operands : List String) (comment : String) :
    Puts (instruction opcode operands comment) [(opcode, operands)] :=
  fun _ => ⟨[.commented opcode operands comment], rfl, rfl⟩

theorem puts_saveRegisters (rs : List String) : Puts (saveRegisters rs) (rs.map fun r => (.pushq, [r])) := by
  induction rs with
  | nil => exact fun _ => ⟨[], rfl, rfl⟩
  | cons r rs ih => exact (puts_instruction _ _ _).bind ih

theorem puts_restoreRegisters (rs : List String) :
    Puts (restoreRegisters rs) (rs.map fun r => (.popq, [r])) := by
  induction rs with
  | nil => exact fun _ => ⟨[], rfl, rfl⟩
  | cons r rs ih => exact (puts_instruction _ _ _).bind ih

theorem Puts.goes_on {out : Emitted Unit} (h : Puts x ts) (hout : (x >>= fun _ => y) l = .ok out) :
    ∃ (is : List Instruction) (b : Emitted Unit), is.map Instruction.text = ts ∧ y l = .ok b ∧
      out = ⟨(), is.map .code ++ b.lines, b.layout⟩ := by
  obtain ⟨c, b, hx, hy, rfl⟩ := Emit.bind_eq_ok.1 hout
  obtain ⟨is, hx', his⟩ := h l
  rw [hx] at hx'
  cases hx'
  exact ⟨is, b, his, hy, rfl⟩

theorem text_paramSrc (i : Nat) : (paramSrc i).text = parameterLocation i := by
  unfold paramSrc parameterLocation
  rw [← Reg.map_name_arguments, List.getElem?_map]
  cases hr : Reg.arguments[i]? with
  | some r => rfl
  | none =>
    rw [List.length_map]
    rfl

theorem spillParameters_eq_ok {bs : List Binder} {i : Nat} {f : Frame} {n : Nat} {out : Emitted Unit}
    (h : spillParameters a i bs ⟨f, n⟩ = .ok out) :
    out.layout = ⟨{ f with slots := (bs.map (·.site.id)).reverse ++ f.slots }, n⟩ ∧
      Written exit out.lines (spillItems i bs.length) := by
  induction bs generalizing i f out with
  | nil =>
    obtain rfl := Emit.pure_eq_ok.1 h
    exact ⟨rfl, .nil⟩
  | cons b bs ih =>
    have hcode := expectInt_eq_ok h
    have hpush : ∀ comment, Emits exit (instruction .pushq [parameterLocation i] comment) ⟨f, n⟩
        [.op (.push (paramSrc i) .var)] ⟨f, n⟩ := by
      intro comment
      refine emits_instruction _ comment rfl ?_
      rw [Op.operands, text_paramSrc]
    have hdeclare : Emits exit (modifyFrame (·.declare b.site.id)) ⟨f, n⟩ [] ⟨f.declare b.site.id, n⟩ :=
      emits_modifyFrame _
    obtain ⟨c, hc, hl, hw⟩ := (hpush _).goes_on hcode
    obtain ⟨d, hd, hl', hw'⟩ := hdeclare.goes_on hc
    obtain ⟨hl'', hw''⟩ := ih hd
    rw [hl, hl', hl'']
    refine ⟨?_, hw _ (hw' _ hw'')⟩
    simp [Frame.declare]

theorem puts_exit : Puts (do
    instruction .movq [framePointer, stackPointer] "Discard frame"
    instruction .popq [framePointer] "Restore caller frame pointer"
    restoreRegisters calleeSaved
    instruction .retq [] "Return to caller") exitTexts :=
  (puts_instruction _ _ _).bind <| (puts_instruction _ _ _).bind <|
    (puts_restoreRegisters _).bind (puts_instruction _ _ _)

theorem spelled_of_lines {r : Subroutine} {entry exits : List Instruction} {body rest : List Line}
    {bs : List Block} (hentry : entry.map Instruction.text = entryTexts)
    (hbody : Written (exitLabel r.name) body r.body) (hexit : exits.map Instruction.text = exitTexts)
    (hrest : splitLines rest = ([], bs)) (c d : String) :
    ∃ cs, r.Spelled cs ∧ splitLines (.label r.name c true :: (entry.map .code ++
      (body ++ .label (exitLabel r.name) d false :: (exits.map .code ++ rest)))) = ([], cs ++ bs) := by
  refine ⟨{ name := r.name, comment := some c, isGlobal := true, code := entry ++ (splitLines body).1 } ::
    ((splitLines body).2 ++ [{ name := exitLabel r.name, comment := some d, code := exits }]),
    ⟨rfl, rfl, hentry, hbody.blocks, rfl, hexit⟩, ?_⟩
  rw [splitLines, splitLines_code, splitLines_append_label, splitLines_code, hrest]
  simp

theorem Func.filled_place (f : Func) : f.place.Filled := by
  simp [Spot.Filled, Func.place]

/-- The names of the blocks that are emitted for a function. -/
def Func.Emits (a : Analysis) (f : Func) (names : List String) : Prop :=
  ∃ l out, Emit.function a f l = .ok out ∧ (splitLines out.lines).2.map Block.name = names

/-- **What is emitted for a function spells its routine.** -/
theorem routineCode_of_emit (harity : Resolves a arityOf) {f : Func} {out : Emitted Unit}
    (hc : Stmt.CalledAll a.functions a.types f.body) (h : Emit.function a f l = .ok out) :
    ∃ r, RoutineCode ⟨a.symbols, arityOf⟩ l.labels f r out.layout.labels ∧
      ∀ rest bs, splitLines rest = ([], bs) →
        ∃ cs, r.Spelled cs ∧ splitLines (out.lines ++ rest) = ([], cs ++ bs) := by
  unfold Emit.function at h
  obtain ⟨c, c', hc₀, h₀, rfl⟩ := Emit.bind_eq_ok.1 h
  cases hc₀
  obtain ⟨d, d', hd₀, h₁, rfl⟩ := Emit.bind_eq_ok.1 h₀
  cases hd₀
  -- The code that sets up the frame.
  obtain ⟨i₁, b₁, ht₁, h₂, rfl⟩ := (puts_saveRegisters _).goes_on h₁
  obtain ⟨i₂, b₂, ht₂, h₃, rfl⟩ := (puts_instruction _ _ _).goes_on h₂
  obtain ⟨i₃, b₃, ht₃, h₄, rfl⟩ := (puts_instruction _ _ _).goes_on h₃
  have hentry : (i₁ ++ (i₂ ++ i₃)).map Instruction.text = entryTexts := by
    rw [List.map_append, List.map_append, ht₁, ht₂, ht₃]
    rfl
  -- The body.
  obtain ⟨s₁, s₁', hs₁, h₅, rfl⟩ := Emit.bind_eq_ok.1 h₄
  obtain ⟨hl₁, hw₁⟩ : _ ∧ Written (exitLabel f.name.name) s₁.lines _ := spillParameters_eq_ok hs₁
  have hplace : s₁.layout = ⟨f.place.frame, l.labels⟩ := by
    rw [hl₁]
    simp [Spot.frame, Func.place]
  rw [hplace] at h₅
  obtain ⟨s₂, s₂', hs₂, h₆, rfl⟩ := Emit.bind_eq_ok.1 h₅
  obtain ⟨hl₂, hw₂⟩ := Emits.eq (emits_alignFrame f.filled_place l.labels) hs₂
  have hfilled : f.place.align.Filled := Spot.filled_align f.filled_place rfl
  rw [hl₂] at h₆
  obtain ⟨s₃, s₃', hs₃, h₇, rfl⟩ := Emit.bind_eq_ok.1 h₆
  obtain ⟨mid, hmid, hrest⟩ := scope_eq_ok hfilled hs₃
  obtain ⟨is, q, hcode, hframe, hq, hw₃⟩ := stmtsCode_of_emit harity hfilled hc hmid
  obtain ⟨hl₃, hw₄⟩ := hrest is q hw₃ hframe hq
  obtain ⟨s₄, s₄', hs₄, h₈, rfl⟩ := Emit.bind_eq_ok.1 h₇
  obtain ⟨hl₄, hw₅⟩ := Emits.eq (emits_instruction (.move (.imm 0) .rax) _ rfl
    (by simp [Op.operands]; rfl)) hs₄
  -- The code behind the exit.
  obtain ⟨s₅, s₅', hs₅, h₉, rfl⟩ := Emit.bind_eq_ok.1 h₈
  cases hs₅
  obtain ⟨i₄, hi₄, hexit⟩ := puts_exit s₄.layout
  rw [h₉] at hi₄
  cases hi₄
  have hbody : Written (exitLabel f.name.name) (s₁.lines ++ (s₂.lines ++ (s₃.lines ++ s₄.lines)))
      (spillItems 0 f.params.length ++ (f.place.alignItems ++
        (is ++ (f.place.align.release q ++ [.op (.move (.imm 0) .rax)])))) := by
    rw [← List.append_assoc is]
    exact hw₁.append (hw₂.append (hw₄.append hw₅))
  have hlabels : mid.layout.labels = s₄.layout.labels := by rw [hl₄, hl₃]
  rw [hlabels] at hcode
  refine ⟨_, .mk hcode, fun rest bs hrest' => ?_⟩
  obtain ⟨cs, hspelled, hsplit⟩ := spelled_of_lines (r := ⟨f.name.name, f.params.length, _⟩) hentry hbody
    hexit hrest' s!"Entry point of function '{f.name.name}'" s!"Exit point of function '{f.name.name}'"
  refine ⟨cs, hspelled, ?_⟩
  rw [← hsplit]
  congr 1
  simp only [List.map_append, List.append_assoc, List.cons_append, List.nil_append]

theorem programCode_of_emit (harity : Resolves a arityOf) {fs : List Func} {l : Layout}
    {out : Emitted Unit} (hc : ∀ f ∈ fs, Stmt.CalledAll a.functions a.types f.body)
    (h : Emit.functions a fs l = .ok out) :
    ∃ rs bs, ProgramCode ⟨a.symbols, arityOf⟩ l.labels fs rs out.layout.labels ∧ Spelled rs bs ∧
      splitLines out.lines = ([], bs) ∧ List.Forall₂ (fun f r => f.Emits a r.names) fs rs := by
  induction fs generalizing l out with
  | nil =>
    obtain rfl := Emit.pure_eq_ok.1 h
    exact ⟨[], [], .nil, .nil, rfl, .nil⟩
  | cons f fs ih =>
    obtain ⟨b, b', hb, hb', rfl⟩ := Emit.bind_eq_ok.1 h
    obtain ⟨r, hr, hlines⟩ := routineCode_of_emit harity (hc f List.mem_cons_self) hb
    obtain ⟨rs, bs, hrs, hspelled, hsplit, hemits⟩ := ih (fun g hg => hc g (List.mem_cons_of_mem _ hg)) hb'
    obtain ⟨cs, hs, hsplit'⟩ := hlines b'.lines bs hsplit
    obtain ⟨ds, hds, halone⟩ := hlines [] [] rfl
    refine ⟨r :: rs, cs ++ bs, .cons hr hrs, .cons hs hspelled, hsplit', .cons ⟨l, b, hb, ?_⟩ hemits⟩
    rw [List.append_nil, List.append_nil] at halone
    rw [halone, hds.names_eq]

/-- **The module of a program spells the routines of its functions.** -/
theorem programCode_of_generate (harity : Resolves a arityOf) {p : Program} {m : Module}
    (hc : ∀ f ∈ p.functions, Stmt.CalledAll a.functions a.types f.body) (h : generate a p = .ok m) :
    ∃ rs n, ProgramCode ⟨a.symbols, arityOf⟩ 0 p.functions rs n ∧ Spelled rs m.blocks ∧
      List.Forall₂ (fun f r => f.Emits a r.names) p.functions rs := by
  unfold generate at h
  split at h
  · next out hout =>
    cases h
    obtain ⟨rs, bs, hrs, hspelled, hsplit, hemits⟩ := programCode_of_emit harity hc hout
    refine ⟨rs, _, hrs, ?_, hemits⟩
    rw [Module.ofLines, hsplit]
    exact hspelled
  · cases h

end Functions

end MicroC
