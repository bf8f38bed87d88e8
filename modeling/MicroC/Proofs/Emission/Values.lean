import MicroC.Proofs.Emission.Heights
import MicroC.Proofs.Routine.Meets

/-!
# What the code of expressions computes

The code of an expression leaves its value on the stack, and the variables as the evaluation of the expression
leaves them.

* `Env.words`: the words of the variables in scope.
* `meets_operatorItems`: operators.
* `CallsMeet`: what calls have to do.
* **`ExprCode.meets`**: expressions.
-/

namespace MicroC

open Convention

/-! ## Templates -/

section Templates

variable {σ : Type} [Host σ] {prog : List Subroutine} {most : Nat} {s : State} {host : σ} {r : Subroutine}
  {cs : List Caller} {k : List Item} {ws : List (Option Int64)} {v w : Int64} {κ : Kind}

theorem reaches_growItems {n : Nat} (hs : s.At r cs (growItems n ++ k) ws) :
    Reaches prog most s host fun t => t.At r cs k (List.replicate n none ++ ws) ∧ t.regs = s.regs := by
  induction n generalizing s ws with
  | zero => exact .here ⟨hs, rfl⟩
  | succ n ih =>
    have hgrown : State.At { s with rest := growItems n ++ k, words := none :: s.words } r cs (growItems n ++ k)
        (none :: ws) := ⟨hs.routine, hs.callers, rfl, congrArg _ hs.words⟩
    refine .op hs.rest (fun _ => rfl) ((ih hgrown).trans fun t ht => .here ⟨?_, ht.2⟩)
    rw [List.replicate_succ', List.append_assoc]
    exact ht.1

theorem reaches_shrinkItems {n : Nat} (hs : s.At r cs (shrinkItems n ++ k) ws) (hn : n ≤ ws.length) :
    Reaches prog most s host fun t => t.At r cs k (ws.drop n) ∧ t.regs = s.regs := by
  cases n with
  | zero => exact .here ⟨hs, rfl⟩
  | succ n =>
    have hwords := hs.words
    exact reaches_shrink hs.rest (hwords ▸ hn) (.here ⟨⟨hs.routine, hs.callers, rfl, hwords ▸ rfl⟩, rfl⟩)

theorem reaches_popItems {rs : List Reg} {vs : List Int64} (hs : s.At r cs (popItems rs ++ k) (vs.map some ++ ws))
    (hlen : vs.length = rs.length) (hrs : rs.Nodup) :
    Reaches prog most s host fun t => t.At r cs k ws ∧ rs.map t.regs = vs ∧ ∀ q ∉ rs, t.regs q = s.regs q := by
  induction rs generalizing s vs with
  | nil =>
    rw [List.length_nil, List.length_eq_zero_iff] at hlen
    subst hlen
    exact .here ⟨hs, rfl, fun _ _ => rfl⟩
  | cons q rs ih =>
    obtain ⟨hq, hrs⟩ := List.nodup_cons.1 hrs
    cases vs with
    | nil => simp at hlen
    | cons v vs =>
      have hpopped : State.At ({ s with rest := popItems rs ++ k, words := vs.map some ++ ws }.set q v) r cs
          (popItems rs ++ k) (vs.map some ++ ws) := ⟨hs.routine, hs.callers, rfl, rfl⟩
      refine reaches_pop hs.rest hs.words ((ih hpopped (by simpa using hlen) hrs).trans
        fun t ⟨ht, hvs, hother⟩ => .here ⟨ht, ?_, fun p hp => ?_⟩)
      · rw [List.map_cons, hvs, hother q hq, State.set_regs, if_pos rfl]
      · rw [List.mem_cons, not_or] at hp
        rw [hother p hp.2, State.set_regs, if_neg hp.1]

theorem reaches_negationItems (hcs : cs.length ≤ most) (hs : s.At r cs (negationItems κ ++ k) (some v :: ws)) :
    Reaches prog most s host fun t => t.At r cs k (some (-v) :: ws) := by
  refine reaches_pop hs.rest hs.words ?_
  refine .op rfl (fun _ => rfl) ?_
  exact reaches_push hs.callers hcs rfl (fun _ => rfl) (.here ⟨hs.routine, hs.callers, rfl, rfl⟩)

theorem reaches_arithmeticItems {f : Arith} (hcs : cs.length ≤ most)
    (hs : s.At r cs (arithmeticItems f κ ++ k) (some w :: some v :: ws)) :
    Reaches prog most s host fun t => t.At r cs k (some (f.apply v w) :: ws) := by
  refine reaches_pop hs.rest hs.words (reaches_pop rfl rfl ?_)
  refine reaches_combine rfl (fun _ => rfl) ?_
  exact reaches_push hs.callers hcs rfl (fun _ => rfl) (.here ⟨hs.routine, hs.callers, rfl, rfl⟩)

theorem reaches_comparisonItems {o : Order} (hcs : cs.length ≤ most)
    (hs : s.At r cs (comparisonItems o κ ++ k) (some w :: some v :: ws)) :
    Reaches prog most s host fun t => t.At r cs k (some (truth (o.holds v w)) :: ws) := by
  refine reaches_pop hs.rest hs.words (reaches_pop rfl rfl ?_)
  refine reaches_move rfl (fun _ => rfl) (reaches_move rfl (fun _ => rfl) ?_)
  refine reaches_compare rfl (fun _ => rfl) ?_
  refine reaches_select rfl rfl ?_
  exact reaches_push hs.callers hcs rfl (fun _ => rfl) (.here ⟨hs.routine, hs.callers, rfl, rfl⟩)

/-- A division leaves its quotient in one register and its remainder in another one. -/
theorem meets_divisionItems {fuel : Nat} {q : Reg} {f : Int64 → Int64 → Int64}
    (hq : q = .rax ∧ f v w = v / w ∨ q = .rdx ∧ f v w = v % w) (hcs : cs.length ≤ most)
    (hs : s.At r cs (divisionItems q κ ++ k) (some w :: some v :: ws)) :
    Meets prog most fuel (fun u t => t.At r cs k (some u :: ws)) s host (Eval.result (quotient f v w) host) := by
  have hready : Reaches prog most s host fun t => t.At r cs (.op (.divide .r13) :: .op (.push (.reg q) κ) :: k) ws ∧
      t.regs .r13 = w ∧ t.regs .rax = v ∧ t.regs .rdx = signWord v := by
    refine reaches_pop hs.rest hs.words (reaches_pop rfl rfl (.op rfl (fun _ => rfl) (.here ?_)))
    exact ⟨⟨hs.routine, hs.callers, rfl, rfl⟩, rfl, rfl, rfl⟩
  refine hready.meets fun t ⟨ht, hw, hv, hsign⟩ => ?_
  have hnext : ∀ junk, t.next prog junk host = some (if w = 0 then .fails .divisionByZero host
      else if v = Int64.minValue ∧ w = -1 then .fails .divisionOverflow host
      else .goes ((State.set { t with rest := .op (.push (.reg q) κ) :: k } .rax (v / w)).set .rdx (v % w)) host) := by
    intro junk
    rw [State.next, ht.rest]
    dsimp only [Op.run]
    rw [hw, hv, if_pos hsign]
  unfold quotient
  by_cases hzero : w = 0
  · rw [if_pos hzero]
    exact .fails (.fail fun junk => by rw [hnext, if_pos hzero])
  · by_cases hover : v = Int64.minValue ∧ w = -1
    · rw [if_neg hzero, if_pos hover]
      exact .fails (.fail fun junk => by rw [hnext, if_neg hzero, if_pos hover])
    · rw [if_neg hzero, if_neg hover]
      have hpushed : Reaches prog most t host fun u => u.At r cs k (some (f v w) :: ws) := by
        refine .step (fun junk => by rw [hnext, if_neg hzero, if_neg hover]) ?_
        refine reaches_push ht.callers hcs rfl (fun _ => rfl) (.here ⟨ht.routine, ht.callers, rfl, ?_⟩)
        rcases hq with ⟨rfl, hf⟩ | ⟨rfl, hf⟩ <;> rw [hf] <;> exact congrArg _ ht.words
      exact hpushed.meets fun u hu => .pure hu

/-- The loop of a power multiplies as often as the exponent says. -/
theorem reaches_powerLoop {ks : List Kind} {n m : Nat} {x : Int64}
    (hloop : behind (labelName n "pow_loop") r.body = some (powerLoop ks n κ ++ k))
    (hend : behind (labelName (n + 1) "pow_end") r.body = some (.op (.push (.reg .rax) κ) :: k))
    (hcs : cs.length ≤ most) (hs : s.At r cs (powerLoop ks n κ ++ k) ws) (hbase : s.regs .rbx = v)
    (hexp : s.regs .rcx = w) (hacc : s.regs .rax = x) (hm : w.toInt.toNat = m) :
    Reaches prog most s host fun t => t.At r cs k (some (x * v ^ m) :: ws) := by
  -- By induction on the number of rounds that are left.
  induction m generalizing s w x with
  | zero =>
    have hle : w ≤ 0 := by
      rw [Int64.le_iff_toInt_le, Int64.toInt_zero]
      omega
    refine reaches_compare hs.rest (fun _ => rfl) ?_
    refine reaches_jump rfl (?_ : some (decide (s.regs .rcx ≤ 0)) = some true) (hs.routine ▸ hend) ?_
    · rw [hexp, decide_eq_true hle]
    · refine reaches_push hs.callers hcs rfl (fun _ => rfl) (.here ⟨hs.routine, hs.callers, rfl, ?_⟩)
      have hone : x * v ^ 0 = x := Int64.mul_one x
      rw [hone, ← hacc]
      exact congrArg _ hs.words
  | succ m ih =>
    have hpos : 0 < w.toInt := by omega
    have hlt : ¬ w ≤ 0 := by
      rw [Int64.le_iff_toInt_le, Int64.toInt_zero]
      omega
    have hone : (1 : Int64) ≤ w := by
      rw [Int64.le_iff_toInt_le, Int64.toInt_one]
      omega
    have hsub : (w - 1).toInt.toNat = m := by
      rw [Int64.toInt_sub_of_le _ _ (by decide) hone, Int64.toInt_one]
      omega
    refine reaches_compare hs.rest (fun _ => rfl) ?_
    refine reaches_pass rfl (?_ : some (decide (s.regs .rcx ≤ 0)) = some false) ?_
    · rw [hexp, decide_eq_false hlt]
    · refine reaches_combine rfl (fun _ => rfl) (reaches_combine rfl (fun _ => rfl) ?_)
      refine reaches_jump rfl rfl (hs.routine ▸ hloop) ?_
      have hmul : x * v * v ^ m = x * v ^ (m + 1) := by
        rw [Int64.mul_assoc, Int64.mul_comm v]
        rfl
      rw [← hmul]
      refine ih ⟨hs.routine, hs.callers, rfl, hs.words⟩ hbase ?_ ?_ hsub
      · show s.regs .rcx - 1 = w - 1
        rw [hexp]
      · show s.regs .rax * s.regs .rbx = x * v
        rw [hacc, hbase]

theorem reaches_powerItems {ks : List Kind} {n : Nat} (hn : ((labels r.body).map Prod.fst).Nodup)
    (hsuffix : powerItems ks n κ ++ k <:+ r.body) (hcs : cs.length ≤ most)
    (hs : s.At r cs (powerItems ks n κ ++ k) (some w :: some v :: ws)) :
    Reaches prog most s host fun t => t.At r cs k (some (v ^ w.toInt.toNat) :: ws) := by
  have hloop : .label (labelName n "pow_loop") ks :: (powerLoop ks n κ ++ k) <:+ powerItems ks n κ ++ k :=
    ⟨[.op (.pop .rcx), .op (.pop .rbx), .op (.move (.imm 1) .rax)], rfl⟩
  have hend : .label (labelName (n + 1) "pow_end") ks :: .op (.push (.reg .rax) κ) :: k <:+ powerLoop ks n κ ++ k :=
    ⟨[.op (.compare (.imm 0) .rcx), .op (.jump .atMost (labelName (n + 1) "pow_end")),
      .op (.combine .mul (.reg .rbx) .rax), .op (.combine .sub (.imm 1) .rcx),
      .op (.jump .always (labelName n "pow_loop"))], rfl⟩
  have hbehind := behind_of_suffix hn (hloop.trans hsuffix)
  have hbehind' := behind_of_suffix hn (((hend.trans (List.suffix_cons _ _)).trans hloop).trans hsuffix)
  refine reaches_pop hs.rest hs.words (reaches_pop rfl rfl (reaches_move rfl (fun _ => rfl) (reaches_label rfl ?_)))
  have hone : v ^ w.toInt.toNat = 1 * v ^ w.toInt.toNat := (Int64.one_mul _).symm
  rw [hone]
  exact reaches_powerLoop hbehind hbehind' hcs ⟨hs.routine, hs.callers, rfl, rfl⟩ rfl rfl rfl rfl

/-- **An operator computes its value.** -/
theorem meets_operatorItems {fuel n : Nat} {ks : List Kind} {op : BinaryOp} (hop : op ≠ .assign)
    (hn : ((labels r.body).map Prod.fst).Nodup) (hsuffix : operatorItems ks n κ op ++ k <:+ r.body)
    (hcs : cs.length ≤ most) (hs : s.At r cs (operatorItems ks n κ op ++ k) (some w :: some v :: ws)) :
    Meets prog most fuel (fun u t => t.At r cs k (some u :: ws)) s host (Eval.result (op.value v w) host) := by
  cases op with
  | assign => exact absurd rfl hop
  | add => exact (reaches_arithmeticItems (f := .add) hcs hs).meets fun t ht => .pure ht
  | sub => exact (reaches_arithmeticItems (f := .sub) hcs hs).meets fun t ht => .pure ht
  | mul => exact (reaches_arithmeticItems (f := .mul) hcs hs).meets fun t ht => .pure ht
  | div => exact meets_divisionItems (.inl ⟨rfl, rfl⟩) hcs hs
  | mod => exact meets_divisionItems (.inr ⟨rfl, rfl⟩) hcs hs
  | pow => exact (reaches_powerItems hn hsuffix hcs hs).meets fun t ht => .pure ht
  | _ => exact (reaches_comparisonItems hcs hs).meets fun t ht => .pure ht

/-- A branch is taken if its condition is not one. -/
theorem reaches_branchItems {target : String} {k' : List Item} (hl : behind target r.body = some k')
    (hs : s.At r cs (branchItems target ++ k) (some v :: ws)) :
    Reaches prog most s host fun t => t.At r cs (if v = 1 then k else k') ws := by
  refine reaches_pop hs.rest hs.words (reaches_compare rfl (fun _ => rfl) ?_)
  by_cases hv : v = 1
  · refine reaches_pass rfl (?_ : some (v != 1) = some false) (.here ⟨hs.routine, hs.callers, ?_, rfl⟩)
    · rw [hv]
      rfl
    · rw [if_pos hv]
      rfl
  · refine reaches_jump rfl (?_ : some (v != 1) = some true) (hs.routine ▸ hl) (.here ⟨hs.routine, hs.callers, ?_, rfl⟩)
    · rw [bne_iff_ne.2 hv]
    · rw [if_neg hv]

end Templates

/-! ## Variables -/

theorem setUnder_length_cons {α : Type} (x : α) (xs : List α) (a : α) : setUnder (x :: xs) xs.length a = a :: xs := by
  unfold setUnder
  rw [List.reverse_cons, ← List.length_reverse, List.set_append_right _ _ (Nat.le_refl _), Nat.sub_self,
    List.reverse_append, List.reverse_reverse]
  rfl

theorem setUnder_append {α : Type} (xs : List α) {ys : List α} {i : Nat} (h : i < ys.length) (a : α) :
    setUnder (xs ++ ys) i a = xs ++ setUnder ys i a := by
  induction xs with
  | nil => rfl
  | cons x xs ih =>
    have hlt : i < (xs ++ ys).length := by
      rw [List.length_append]
      omega
    rw [List.cons_append, setUnder_cons hlt, ih]
    rfl

namespace Env

/-- The words of the variables in scope. -/
def words (env : Env) : List (Option Int64) := env.map fun x => some x.2

@[simp] theorem length_words (env : Env) : env.words.length = env.length := List.length_map ..

@[simp] theorem length_slots (env : Env) : env.slots.length = env.length := List.length_map ..

variable {env : Env} {d : NodeId} {m : Nat}

theorem words_cons (x : NodeId × Int64) (env : Env) : words (x :: env) = some x.2 :: words env := rfl

theorem slots_cons (x : NodeId × Int64) (env : Env) : slots (x :: env) = x.1 :: slots env := rfl

/-- A variable that is in scope has its value in its word. -/
theorem get?_of_slot (h : Frame.slotNumber? d env.slots = some (m + 1)) :
    ∃ v, env.get? d = some v ∧ under env.words m = some (some v) := by
  induction env with
  | nil => cases h
  | cons x env ih =>
    obtain ⟨e, w⟩ := x
    rw [slots_cons, Frame.slotNumber?, length_slots] at h
    rw [words_cons, under_cons, get?, length_words]
    split at h
    · next hd =>
      cases h
      rw [if_pos hd, if_pos rfl]
      exact ⟨w, rfl, rfl⟩
    · next hd =>
      obtain ⟨v, hv, hword⟩ := ih h
      have hlt := lt_of_under hword
      rw [length_words] at hlt
      rw [if_neg hd, if_neg (Nat.ne_of_lt hlt)]
      exact ⟨v, hv, hword⟩

@[simp] theorem slots_set (env : Env) (d : NodeId) (v : Int64) : (env.set d v).slots = env.slots := by
  induction env with
  | nil => rfl
  | cons x env ih =>
    obtain ⟨e, w⟩ := x
    rw [set]
    split
    · next hd => rw [hd]; rfl
    · exact congrArg (e :: ·) ih

/-- Giving it another value changes that word. -/
theorem words_set (h : Frame.slotNumber? d env.slots = some (m + 1)) (v : Int64) :
    (env.set d v).words = setUnder env.words m (some v) := by
  induction env with
  | nil => cases h
  | cons x env ih =>
    obtain ⟨e, w⟩ := x
    rw [slots_cons, Frame.slotNumber?, length_slots] at h
    rw [set]
    split at h
    · next hd =>
      cases h
      rw [if_pos hd, words_cons, words_cons, ← length_words, setUnder_length_cons]
    · next hd =>
      obtain ⟨_, -, hword⟩ := get?_of_slot h
      rw [if_neg hd, words_cons, words_cons, setUnder_cons (lt_of_under hword), ih h]

end Env

/-! ## Expressions -/

section Expressions

variable {σ : Type} [Host σ] {prog : List Subroutine} {r : Subroutine} {cs : List Caller} {c : Meaning}
  {slots : List NodeId} {most fuel : Nat} {call : String → List Int64 → Eval σ Int64}

/-- Calls behind some callers do what their evaluations say. -/
def CallsMeet (prog : List Subroutine) (c : Meaning) (cs : List Caller) (most fuel : Nat)
    (call : String → List Int64 → Eval σ Int64) : Prop :=
  ∀ {s : State} {r : Subroutine} {k : List Item} {ws : List (Option Int64)} {f : String}
    {args : List Int64} {host : σ}, s.At r cs (.op (.call f) :: k) ws → c.arityOf f = some args.length →
      s.arguments args.length = some args → ws.length % 2 = 0 →
        Meets prog most fuel (fun v t => t.At r cs k ws ∧ t.regs .rax = v) s host (call f args host)

theorem topValues_map (vs : List Int64) (ws : List (Option Int64)) :
    topValues vs.length (vs.map some ++ ws) = some vs := by
  induction vs with
  | nil => rfl
  | cons v vs ih =>
    rw [List.length_cons, List.map_cons, List.cons_append, topValues, ih]
    rfl

theorem CallsMeet.items (hcall : CallsMeet prog c cs most fuel call) (hcs : cs.length ≤ most) {s : State} {host : σ}
    {k : List Item} {f : String} {args : List Int64} {p : Nat} {κ : Kind} {pad ws : List (Option Int64)}
    (hf : c.arityOf f = some args.length) (hpad : pad.length = p)
    (heven : (stackArguments args.length + p + ws.length) % 2 = 0)
    (hs : s.At r cs (callItems f args.length p κ ++ k) (args.map some ++ (pad ++ ws))) :
    Meets prog most fuel (fun v t => t.At r cs k (some v :: ws)) s host (call f args host) := by
  have hregs : (args.take 6).length = (Reg.arguments.take args.length).length := by
    rw [List.length_take, List.length_take, show Reg.arguments.length = 6 from rfl, Nat.min_comm]
  have hstack : (args.drop 6).length = stackArguments args.length := List.length_drop
  rw [callItems, List.append_assoc, List.cons_append, List.append_assoc, ← List.take_append_drop 6 args,
    List.map_append, List.append_assoc, List.take_append_drop] at hs
  refine (reaches_popItems hs hregs (List.Sublist.nodup (List.take_sublist _ _) (by decide))).meets
    fun t ht => ?_
  obtain ⟨ht, hargs, -⟩ := ht
  have hlen : ((args.drop 6).map some ++ (pad ++ ws)).length = stackArguments args.length + p + ws.length := by
    rw [List.length_append, List.length_append, List.length_map, hstack, hpad, Nat.add_assoc]
  have hargs' : t.arguments args.length = some args := by
    rw [State.arguments, ht.words, ← hstack, topValues_map, Option.map_some, hargs, List.take_append_drop]
  have hdrop : ((args.drop 6).map some ++ (pad ++ ws)).drop (stackArguments args.length + p) = ws := by
    rw [← List.append_assoc, List.drop_left' (by rw [List.length_append, List.length_map, hstack, hpad])]
  refine (hcall ht hf hargs' (hlen ▸ heven)).reaches fun v u host' hu => ?_
  obtain ⟨hu, hv⟩ := hu
  refine (reaches_shrinkItems hu (by rw [hlen]; omega)).trans fun y hy => ?_
  obtain ⟨hy, hreg⟩ := hy
  rw [hdrop] at hy
  exact reaches_push hy.callers hcs hy.rest (fun _ => rfl)
    (.here ⟨hy.routine, hy.callers, rfl, by rw [hy.words, hreg, hv]⟩)

mutual

/-- **The code of an expression computes its value.** -/
theorem ExprCode.meets (hcall : CallsMeet prog c cs most fuel call) (hcs : cs.length ≤ most)
    (hn : ((labels r.body).map Prod.fst).Nodup) {ks : List Kind} {n n' : Nat} {κ : Kind} {e : Expr} {is : List Item}
    (h : ExprCode c slots ks n κ e is n') {s : State} {host : σ} {k : List Item} {top : List (Option Int64)}
    {env : Env} (hs : s.At r cs (is ++ k) (top ++ env.words)) (henv : env.slots = slots)
    (hks : ks.length = top.length + env.length) (hsuffix : is ++ k <:+ r.body) :
    Meets prog most fuel (fun x t => t.At r cs k (some x.1 :: (top ++ x.2.words)) ∧ x.2.slots = slots) s host
      (e.eval c.symbols call env host) := by
  match h with
  | .narrow _ =>
    exact (reaches_push hs.callers hcs hs.rest (fun _ => rfl)
      (.here ⟨hs.routine, hs.callers, rfl, congrArg _ hs.words⟩)).meets fun t ht => .pure ⟨ht, henv⟩
  | .wide _ =>
    exact (reaches_move hs.rest (fun _ => rfl) (reaches_push hs.callers hcs rfl (fun _ => rfl)
      (.here ⟨hs.routine, hs.callers, rfl, congrArg _ hs.words⟩))).meets fun t ht => .pure ⟨ht, henv⟩
  | @ExprCode.var _ _ ks n m κ st x hm =>
    obtain ⟨d, hd, hslot⟩ := Meaning.slot?_eq_some hm
    obtain ⟨v, hv, hword⟩ := Env.get?_of_slot (henv.symm ▸ hslot)
    have heval : (Expr.var st x).eval c.symbols call env host = .ok (v, env) host := by
      have hread : env.read d = (pure v : Eval σ Int64) := by rw [Env.read, hv]
      rw [Expr.eval, SymbolTable.resolve, hd]
      show (env.read d >>= fun v => (pure (v, env) : Eval σ (Int64 × Env))) host = _
      rw [hread]
      rfl
    have hread : ∀ junk, (Src.slot m).read junk s = some (.ok v) := by
      intro junk
      rw [Src.read, hs.words, under_append, if_pos (lt_of_under hword), hword]
      rfl
    rw [heval]
    exact (reaches_push hs.callers hcs hs.rest hread (.here ⟨hs.routine, hs.callers, rfl, congrArg _ hs.words⟩)).meets
      fun t ht => .pure ⟨ht, henv⟩
  | .plus hx =>
    rw [Expr.eval]
    exact hx.meets hcall hcs hn hs henv hks hsuffix
  | .neg hx =>
    rw [List.append_assoc] at hs hsuffix
    rw [Expr.eval]
    refine (hx.meets hcall hcs hn hs henv hks hsuffix).bind fun (v, env') t host' ⟨ht, henv'⟩ => ?_
    exact (reaches_negationItems hcs ht).meets fun u hu => .pure ⟨hu, henv'⟩
  | .assign hm hy =>
    obtain ⟨d, hd, hslot⟩ := Meaning.slot?_eq_some hm
    rw [List.append_assoc] at hs hsuffix
    rw [Expr.eval, if_pos rfl]
    refine (hy.meets hcall hcs hn hs henv hks hsuffix).bind fun (v, env') t host' ⟨ht, henv'⟩ => ?_
    rw [← henv'] at hslot
    obtain ⟨w, -, hword⟩ := Env.get?_of_slot hslot
    have hlt := lt_of_under hword
    have hstored := Env.words_set hslot v
    rw [Expr.target, SymbolTable.resolve, hd]
    refine Reaches.meets (S := fun u => u.At r cs k (some v :: (top ++ (env'.set d v).words))) ?_
      fun u hu => .pure ⟨hu, (Env.slots_set _ _ _).trans henv'⟩
    refine reaches_peek ht.rest ht.words (reaches_store (v := w) rfl ?_ (.here ⟨ht.routine, ht.callers, rfl, ?_⟩))
    · show under t.words _ = _
      rw [ht.words, ← List.cons_append, under_append, if_pos hlt, hword]
    · show setUnder t.words _ (some v) = _
      rw [ht.words, ← List.cons_append, setUnder_append _ hlt, hstored]
      rfl
  | @ExprCode.binary _ _ ks n n₁ n₂ κ st op sp x y is js hop hx hy =>
    rw [List.append_assoc, List.append_assoc] at hs hsuffix
    rw [Expr.eval, if_neg hop]
    refine (hx.meets hcall hcs hn hs henv hks hsuffix).bind fun (v, env₁) t host₁ ⟨ht, henv₁⟩ => ?_
    have hlen : env₁.length = env.length := by rw [← Env.length_slots, henv₁, ← henv, Env.length_slots]
    have hsuffix₁ := (List.suffix_append _ _).trans hsuffix
    have hpushed : t.At r cs (js ++ (operatorItems ks n₂ κ op ++ k)) ((some v :: top) ++ env₁.words) := ht
    refine (hy.meets hcall hcs hn hpushed henv₁ ?_ hsuffix₁).bind fun (w, env₂) u host₂ ⟨hu, henv₂⟩ => ?_
    · rw [List.length_cons, List.length_cons, hks, hlen, Nat.add_right_comm]
    · refine (meets_operatorItems hop hn ((List.suffix_append _ _).trans hsuffix₁) hcs hu).bind fun x y host₃ hy => ?_
      exact .pure ⟨hy, henv₂⟩
  | @ExprCode.call _ _ ks n n' p κ st f args is hf hp hargs =>
    rw [List.append_assoc, List.append_assoc] at hs hsuffix
    rw [Expr.eval]
    refine (reaches_growItems hs).meets fun t ⟨ht, _⟩ => ?_
    rw [← List.append_assoc (List.replicate p none)] at ht
    have hsuffix₁ := (List.suffix_append _ _).trans hsuffix
    have hgrown : (List.replicate p Kind.pad ++ ks).length = (List.replicate p none ++ top).length + env.length := by
      simp only [List.length_append, List.length_replicate, hks, Nat.add_assoc]
    refine (hargs.meets hcall hcs hn ht henv hgrown hsuffix₁).bind fun (vs, env₁) u host₁ ⟨hu, henv₁, hlen⟩ => ?_
    have hslots : env₁.length = env.length := by rw [← Env.length_slots, henv₁, ← henv, Env.length_slots]
    rw [← hlen, List.append_assoc] at hu
    rw [← hlen] at hf
    have heven : (stackArguments vs.length + p + (top ++ env₁.words).length) % 2 = 0 := by
      rw [List.length_append, Env.length_words, hslots, ← hks, hlen, hp, callPadding]
      omega
    refine (hcall.items hcs hf List.length_replicate heven hu).bind fun v y host₂ hy => ?_
    exact .pure ⟨hy, henv₁⟩

theorem ArgsCode.meets (hcall : CallsMeet prog c cs most fuel call) (hcs : cs.length ≤ most)
    (hn : ((labels r.body).map Prod.fst).Nodup) {ks : List Kind} {n n' : Nat} {es : List Expr} {is : List Item}
    (h : ArgsCode c slots ks n es is n') {s : State} {host : σ} {k : List Item} {top : List (Option Int64)}
    {env : Env} (hs : s.At r cs (is ++ k) (top ++ env.words)) (henv : env.slots = slots)
    (hks : ks.length = top.length + env.length) (hsuffix : is ++ k <:+ r.body) :
    Meets prog most fuel (fun x t => t.At r cs k (x.1.map some ++ (top ++ x.2.words)) ∧ x.2.slots = slots ∧
      x.1.length = es.length) s host (Expr.evalArgs c.symbols call es env host) := by
  match h with
  | .nil =>
    rw [Expr.evalArgs]
    exact .pure ⟨hs, henv, rfl⟩
  | @ArgsCode.cons _ _ ks n n₁ n₂ e es is js hes he =>
    rw [List.append_assoc] at hs hsuffix
    rw [Expr.evalArgs]
    refine (hes.meets hcall hcs hn hs henv hks hsuffix).bind fun (vs, env₁) t host₁ ⟨ht, henv₁, hlen⟩ => ?_
    have hslots : env₁.length = env.length := by rw [← Env.length_slots, henv₁, ← henv, Env.length_slots]
    have hpushed : (List.replicate es.length Kind.temp ++ ks).length = (vs.map some ++ top).length + env₁.length := by
      simp only [List.length_append, List.length_replicate, List.length_map, hks, hlen, hslots, Nat.add_assoc]
    rw [← List.append_assoc] at ht
    refine (he.meets hcall hcs hn ht henv₁ hpushed ((List.suffix_append _ _).trans hsuffix)).bind
      fun (v, env₂) u host₂ ⟨hu, henv₂⟩ => ?_
    refine .pure ⟨?_, henv₂, congrArg (· + 1) hlen⟩
    rw [List.append_assoc] at hu
    exact hu

end

end Expressions

end MicroC
