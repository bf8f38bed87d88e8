import Mathlib.Algebra.Group.Int.Defs
import Mathlib.Algebra.Group.Nat.Defs
import MicroC.Proofs.Routine.Step

/-!
# Shapes of frames

At every place of a routine it is known what the words of the frame are used for, which registers have a
value, and whether a comparison was made. A body is checked from the front to the back; at a label and
behind a jump or a call nothing is known but the words.

* `Shape`: what is known at a place.
* `Op.effect`: what is known behind an operation. It is nothing where the operation is out of place.
* `Check`: items that are in order.
* `Check.mono`: they are in order for all who know more.
-/

namespace MicroC

open Convention

/-- What is known of a register. -/
inductive Fact
  /-- It may differ from run to run of the same code. -/
  | nothing
  | value
  | const (w : Int64)
deriving DecidableEq

/-- All that is known of the first is known of the second. -/
def Fact.le : Fact → Fact → Prop
  | .nothing, _ => True
  | .value, f => f ≠ .nothing
  | .const w, f => f = .const w

theorem Fact.le.refl (f : Fact) : f.le f := by
  cases f <;> simp [Fact.le]

theorem Fact.le.ne_nothing {f g : Fact} (h : f.le g) (hf : f ≠ .nothing) : g ≠ .nothing := by
  cases f with
  | nothing => exact absurd rfl hf
  | value => exact h
  | const w =>
    cases h
    simp

/-- What is known at a place. -/
structure Shape where
  words : List Kind
  /-- Whether a comparison was made. -/
  flags : Bool
  /-- Whether `rdx` has the sign of `rax`. -/
  wide : Bool
  facts : Reg → Fact

/-- How many words on top of a stack are padding. -/
def pads : List Kind → Nat
  | .pad :: ks => pads ks + 1
  | _ => 0

theorem pads_le_length (ks : List Kind) : pads ks ≤ ks.length := by
  fun_induction pads ks with
  | case1 ks ih => simpa using ih
  | case2 ks h => exact Nat.zero_le _

theorem pads_drop (n : Nat) (ks : List Kind) : ks.length - pads ks ≥ (ks.drop n).length - pads (ks.drop n) := by
  induction n generalizing ks with
  | zero => exact Nat.le_refl _
  | succ n ih =>
    cases ks with
    | nil => simp
    | cons k ks =>
      have := ih ks
      rw [List.drop_succ_cons]
      have hle := pads_le_length ks
      cases k <;> simp only [pads, List.length_cons] <;> omega

/-- A variable may be taken for padding. -/
def Kind.le : Kind → Kind → Bool
  | .pad, .var => true
  | j, k => j == k

/-- Words of the second kinds may be taken for words of the first. -/
def kindsLe : List Kind → List Kind → Bool
  | [], [] => true
  | j :: js, k :: ks => j.le k && kindsLe js ks
  | _, _ => false

section Kinds

variable {j k : Kind} {js ks ls : List Kind}

theorem Kind.le_refl (k : Kind) : k.le k = true := by cases k <;> rfl

theorem Kind.le_cases (h : j.le k = true) : j = k ∨ j = .pad ∧ k = .var := by
  cases j <;> cases k <;> simp_all [Kind.le]

theorem kindsLe_refl (ks : List Kind) : kindsLe ks ks = true := by
  induction ks with
  | nil => rfl
  | cons k ks ih => simp [kindsLe, Kind.le_refl, ih]

theorem kindsLe_cons : kindsLe (j :: js) (k :: ks) = true ↔ j.le k = true ∧ kindsLe js ks = true := by
  simp [kindsLe]

theorem kindsLe_cons_left (h : kindsLe (j :: js) ls = true) :
    ∃ k ks, ls = k :: ks ∧ j.le k = true ∧ kindsLe js ks = true := by
  cases ls with
  | nil => cases h
  | cons k ks => exact ⟨k, ks, rfl, kindsLe_cons.1 h⟩

theorem kindsLe_length (h : kindsLe js ks = true) : ks.length = js.length := by
  induction js generalizing ks with
  | nil =>
    cases ks with
    | nil => rfl
    | cons => cases h
  | cons j js ih =>
    obtain ⟨k, ks, rfl, -, h⟩ := kindsLe_cons_left h
    simp [ih h]

theorem kindsLe_trans (h : kindsLe js ks = true) (h' : kindsLe ks ls = true) : kindsLe js ls = true := by
  induction js generalizing ks ls with
  | nil =>
    cases ks with
    | nil => exact h'
    | cons => cases h
  | cons j js ih =>
    obtain ⟨k, ks, rfl, hj, hjs⟩ := kindsLe_cons_left h
    obtain ⟨l, ls, rfl, hk, hks⟩ := kindsLe_cons_left h'
    refine kindsLe_cons.2 ⟨?_, ih hjs hks⟩
    rcases Kind.le_cases hj with rfl | ⟨rfl, rfl⟩
    · exact hk
    · rcases Kind.le_cases hk with rfl | ⟨hvar, -⟩
      · rfl
      · cases hvar

theorem kindsLe_drop (h : kindsLe js ks = true) (n : Nat) : kindsLe (js.drop n) (ks.drop n) = true := by
  induction n generalizing js ks with
  | zero => exact h
  | succ n ih =>
    cases js with
    | nil =>
      cases ks with
      | nil => rfl
      | cons => cases h
    | cons j js =>
      obtain ⟨k, ks, rfl, -, h⟩ := kindsLe_cons_left h
      exact ih h

/-- There is less padding where more is known. -/
theorem pads_le_of_kindsLe (h : kindsLe js ks = true) : pads ks ≤ pads js := by
  induction js generalizing ks with
  | nil =>
    cases ks with
    | nil => exact Nat.le_refl _
    | cons => cases h
  | cons j js ih =>
    obtain ⟨k, ks, rfl, hj, h⟩ := kindsLe_cons_left h
    have := ih h
    rcases Kind.le_cases hj with rfl | ⟨rfl, rfl⟩
    · cases j <;> simp only [pads] <;> omega
    · simp only [pads]
      omega

theorem under_of_kindsLe (h : kindsLe js ks = true) {n : Nat} (hn : under js n = some j) :
    ∃ k, under ks n = some k ∧ j.le k = true := by
  induction js generalizing ks with
  | nil => cases hn
  | cons i js ih =>
    obtain ⟨l, ks, rfl, hi, h⟩ := kindsLe_cons_left h
    rw [under_cons] at hn ⊢
    rw [kindsLe_length h]
    by_cases heq : n = js.length
    · rw [if_pos heq] at hn ⊢
      cases hn
      exact ⟨l, rfl, hi⟩
    · rw [if_neg heq] at hn ⊢
      exact ih h hn

/-- Temporaries stay temporaries. -/
theorem take_temps_of_kindsLe (h : kindsLe js ks = true) {n : Nat}
    (hn : js.take n = List.replicate n .temp) : ks.take n = List.replicate n .temp := by
  induction n generalizing js ks with
  | zero => rfl
  | succ n ih =>
    cases js with
    | nil => simp [List.replicate_succ] at hn
    | cons j js =>
      obtain ⟨k, ks, rfl, hj, hjs⟩ := kindsLe_cons_left h
      rw [List.take_succ_cons, List.replicate_succ, List.cons.injEq] at hn
      obtain ⟨rfl, hn⟩ := hn
      have htake := ih hjs hn
      rcases Kind.le_cases hj with rfl | ⟨hpad, -⟩
      · rw [List.take_succ_cons, List.replicate_succ, htake]
      · cases hpad

end Kinds

namespace Shape

/-- Only the words are known. Scratch registers hold nothing that can be relied on. -/
def fresh (ks : List Kind) : Shape where
  words := ks
  flags := false
  wide := false
  facts r := if r.isScratch then .nothing else .value

/-- A register got a value. -/
def put (sh : Shape) (r : Reg) (f : Fact) : Shape :=
  { sh with wide := false, facts := fun q => if q = r then f else sh.facts q }

/-- All that is known of the first is known of the second. -/
structure Le (sh th : Shape) : Prop where
  words : kindsLe sh.words th.words = true
  flags : sh.flags = true → th.flags = true
  wide : sh.wide = true → th.wide = true
  facts : ∀ r, (sh.facts r).le (th.facts r)

theorem Le.refl (sh : Shape) : sh.Le sh := ⟨kindsLe_refl _, id, id, fun _ => .refl _⟩

theorem Le.fresh {js ks : List Kind} (h : kindsLe js ks = true) : (fresh js).Le (fresh ks) :=
  ⟨h, id, id, fun _ => .refl _⟩

theorem Le.put {sh th : Shape} (h : sh.Le th) (r : Reg) {f g : Fact} (hf : f.le g) :
    (sh.put r f).Le (th.put r g) := by
  refine ⟨h.words, h.flags, id, fun q => ?_⟩
  by_cases hq : q = r
  · simp only [Shape.put, if_pos hq]
    exact hf
  · simp only [Shape.put, if_neg hq]
    exact h.facts q

/-- All registers but the scratch registers have a value. -/
def Warm (sh : Shape) : Prop := ∀ r, r.isScratch = false → sh.facts r ≠ .nothing

theorem warm_fresh (ks : List Kind) : (fresh ks).Warm := by
  intro r hr
  simp [fresh, hr]

theorem isScratch_of_fresh {ks : List Kind} {r : Reg} (h : (fresh ks).facts r ≠ .nothing) : r.isScratch = false :=
  eq_false_of_ne_true fun hr => h (if_pos hr)

theorem facts_fresh_ne_const {ks : List Kind} {r : Reg} {w : Int64} : (fresh ks).facts r ≠ .const w := by
  simp only [fresh]
  split <;> nofun

theorem Warm.put {sh : Shape} (h : sh.Warm) (r : Reg) {f : Fact} (hf : f ≠ .nothing) :
    (sh.put r f).Warm := by
  intro q hq
  simp only [Shape.put]
  by_cases hqr : q = r
  · rw [if_pos hqr]
    exact hf
  · rw [if_neg hqr]
    exact h q hq

theorem Warm.value {sh : Shape} (h : sh.Warm) (r : Reg) : (sh.put r .value).Warm :=
  h.put r (by simp)

theorem Warm.const {sh : Shape} (h : sh.Warm) (r : Reg) (w : Int64) : (sh.put r (.const w)).Warm :=
  h.put r (by simp)

end Shape

/-! ## Operations -/

/-- What a routine may rely on. -/
structure Setting where
  /-- The number of arguments of a function. -/
  arityOf : String → Option Nat
  /-- The number of arguments of the routine itself. -/
  arity : Nat
  /-- The labels of the routine, with the words there. -/
  labels : List (String × List Kind)
  /-- Whether every variable has a value. -/
  strict : Bool
  /-- Whether there is little padding. -/
  thin : Bool

/-- A bound for the number of words of a frame. -/
def wordLimit : Nat := 2 ^ 59

variable (env : Setting)

namespace Src

/-- A word that can be used as a variable. -/
def isVariable (ks : List Kind) (n : Nat) : Bool :=
  match under ks n with
  | some .var => true
  | some .pad => !env.strict
  | _ => false

/-- Whether a source can be read. -/
def ok (sh : Shape) : Src → Bool
  | .imm _ => true
  | .reg r => sh.facts r != .nothing
  | .slot n => isVariable env sh.words n
  | .param n => argumentRegisters.length + n < env.arity

/-- What is known of the value of a source. -/
def fact (sh : Shape) : Src → Fact
  | .imm w => .const w
  | .reg r => sh.facts r
  | .slot _ | .param _ => .value

end Src

/-- Whether there is little padding on top of a stack, if that is asked for. -/
def Setting.isThin (ks : List Kind) : Bool := !env.thin || pads ks ≤ slack

/-- Sums and differences take only scratch registers as their source. -/
def Arith.takes : Arith → Src → Bool
  | .mul, _ => true
  | _, .reg r => r.isScratch
  | _, _ => true

/-- What is known behind an operation. -/
def Op.effect (sh : Shape) : Op → Option Shape
  | .push s k =>
    if s.ok env sh && sh.words.length < wordLimit && env.isThin sh.words && k != .pad then
      some { sh with words := k :: sh.words, wide := false }
    else none
  | .pop r =>
    match sh.words with
    | .temp :: ks => some ({ sh with words := ks }.put r .value)
    | _ => none
  | .move s r => if s.ok env sh then some (sh.put r (s.fact sh)) else none
  | .store r n =>
    if sh.facts r != .nothing && Src.isVariable env sh.words n then some sh else none
  | .peek r =>
    match sh.words with
    | .temp :: _ | .var :: _ => some (sh.put r .value)
    | _ => none
  | .combine f s r =>
    if s.ok env sh && sh.facts r != .nothing && f.takes s then some (sh.put r .value) else none
  | .negate r => if sh.facts r != .nothing then some (sh.put r .value) else none
  | .extend => if sh.facts .rax != .nothing then some { sh.put .rdx .value with wide := true } else none
  | .divide r =>
    if sh.wide && sh.facts r != .nothing then some ((sh.put .rax .value).put .rdx .value) else none
  | .compare s r =>
    if s.ok env sh && sh.facts r != .nothing then some { sh with flags := true, wide := false } else none
  | .select _ s r =>
    if sh.flags && sh.facts s != .nothing && sh.facts r != .nothing then some (sh.put r .value) else none
  | .grow =>
    if sh.words.length < wordLimit then some { sh with words := .pad :: sh.words, wide := false } else none
  | .shrink n =>
    if n < sh.words.length then some { sh with words := sh.words.drop (n + 1), wide := false } else none
  | .nop => some sh
  | .jump j l =>
    if (j == .always || sh.flags) && env.labels.any (fun p => p.1 == l && kindsLe p.2 sh.words) then
      some (.fresh sh.words)
    else none
  | .exit => some (.fresh sh.words)
  | .call f =>
    match env.arityOf f with
    | none => none
    | some n =>
      if sh.words.length % 2 = 0 ∧ env.isThin sh.words = true ∧
          sh.words.take (stackArguments n) = List.replicate (stackArguments n) .temp then
        some (.fresh sh.words)
      else none

/-- Items that are in order. -/
def Check : Shape → List Item → Prop
  | _, [] => True
  | sh, .label _ ks :: k => kindsLe ks sh.words = true ∧ Check (.fresh ks) k
  | sh, .op o :: k => ∃ th, o.effect env sh = some th ∧ Check th k

variable {env} {sh th : Shape}

/-! ## What an operation asks for -/

namespace Op

theorem effect_push {s : Src} {k : Kind} : (Op.push s k).effect env sh = some th ↔
    s.ok env sh = true ∧ sh.words.length < wordLimit ∧ env.isThin sh.words = true ∧ k ≠ .pad ∧
      { sh with words := k :: sh.words, wide := false } = th := by
  simp [Op.effect, and_assoc]

theorem effect_pop {r : Reg} : (Op.pop r).effect env sh = some th ↔
    ∃ ks, sh.words = .temp :: ks ∧ { sh with words := ks }.put r .value = th := by
  rw [Op.effect]
  split
  · next ks hks => simp [hks]
  · next hks =>
    simp only [reduceCtorEq, false_iff, not_exists, not_and]
    intro ks hks'
    exact absurd hks' (hks ks)

theorem effect_move {s : Src} {r : Reg} : (Op.move s r).effect env sh = some th ↔
    s.ok env sh = true ∧ sh.put r (s.fact sh) = th := by
  simp [Op.effect]

theorem effect_store {r : Reg} {n : Nat} : (Op.store r n).effect env sh = some th ↔
    sh.facts r ≠ .nothing ∧ Src.isVariable env sh.words n = true ∧ sh = th := by
  simp [Op.effect, and_assoc]

theorem effect_peek {r : Reg} : (Op.peek r).effect env sh = some th ↔
    ∃ k ks, sh.words = k :: ks ∧ k ≠ .pad ∧ sh.put r .value = th := by
  rw [Op.effect]
  split
  · next ks hks => simp [hks]
  · next ks hks => simp [hks]
  · next h1 h2 =>
    simp only [reduceCtorEq, false_iff, not_exists, not_and]
    intro k ks hks hk
    cases k with
    | temp => exact absurd hks (h1 ks)
    | var => exact absurd hks (h2 ks)
    | pad => exact absurd rfl hk

theorem effect_combine {f : Arith} {s : Src} {r : Reg} : (Op.combine f s r).effect env sh = some th ↔
    s.ok env sh = true ∧ sh.facts r ≠ .nothing ∧ f.takes s = true ∧ sh.put r .value = th := by
  simp [Op.effect, and_assoc]

theorem effect_negate {r : Reg} : (Op.negate r).effect env sh = some th ↔
    sh.facts r ≠ .nothing ∧ sh.put r .value = th := by
  simp [Op.effect]

theorem effect_extend : Op.extend.effect env sh = some th ↔
    sh.facts .rax ≠ .nothing ∧ { sh.put .rdx .value with wide := true } = th := by
  simp [Op.effect]

theorem effect_divide {r : Reg} : (Op.divide r).effect env sh = some th ↔
    sh.wide = true ∧ sh.facts r ≠ .nothing ∧ (sh.put .rax .value).put .rdx .value = th := by
  simp [Op.effect, and_assoc]

theorem effect_compare {s : Src} {r : Reg} : (Op.compare s r).effect env sh = some th ↔
    s.ok env sh = true ∧ sh.facts r ≠ .nothing ∧ { sh with flags := true, wide := false } = th := by
  simp [Op.effect, and_assoc]

theorem effect_select {o : Order} {s r : Reg} : (Op.select o s r).effect env sh = some th ↔
    sh.flags = true ∧ sh.facts s ≠ .nothing ∧ sh.facts r ≠ .nothing ∧ sh.put r .value = th := by
  simp [Op.effect, and_assoc]

theorem effect_grow : Op.grow.effect env sh = some th ↔
    sh.words.length < wordLimit ∧ { sh with words := .pad :: sh.words, wide := false } = th := by
  simp [Op.effect]

theorem effect_shrink {n : Nat} : (Op.shrink n).effect env sh = some th ↔
    n < sh.words.length ∧ { sh with words := sh.words.drop (n + 1), wide := false } = th := by
  simp [Op.effect]

theorem effect_nop : Op.nop.effect env sh = some th ↔ sh = th := by
  simp [Op.effect]

theorem effect_jump {j : Jump} {l : String} : (Op.jump j l).effect env sh = some th ↔
    (j = .always ∨ sh.flags = true) ∧ (∃ ks, (l, ks) ∈ env.labels ∧ kindsLe ks sh.words = true) ∧
      .fresh sh.words = th := by
  have hany : env.labels.any (fun p => p.1 == l && kindsLe p.2 sh.words) = true ↔
      ∃ ks, (l, ks) ∈ env.labels ∧ kindsLe ks sh.words = true := by
    rw [List.any_eq_true]
    constructor
    · rintro ⟨⟨m, ks⟩, hmem, h⟩
      simp only [Bool.and_eq_true, beq_iff_eq] at h
      exact ⟨ks, h.1 ▸ hmem, h.2⟩
    · rintro ⟨ks, hmem, h⟩
      exact ⟨(l, ks), hmem, by simp [h]⟩
  rw [Op.effect, Option.ite_none_right_eq_some, Bool.and_eq_true, hany]
  simp [and_assoc]

theorem effect_exit : Op.exit.effect env sh = some th ↔ .fresh sh.words = th := by
  simp [Op.effect]

theorem effect_call {f : String} : (Op.call f).effect env sh = some th ↔
    ∃ n, env.arityOf f = some n ∧ sh.words.length % 2 = 0 ∧ env.isThin sh.words = true ∧
      sh.words.take (stackArguments n) = List.replicate (stackArguments n) .temp ∧
      .fresh sh.words = th := by
  rw [Op.effect]
  split
  · next h => simp [h]
  · next n h => simp [h, and_assoc]

end Op

/-! ## Knowing more -/

theorem Src.isVariable_mono {n : Nat} {js ks : List Kind} (h : kindsLe js ks = true)
    (hn : Src.isVariable env js n = true) : Src.isVariable env ks n = true := by
  unfold Src.isVariable at hn ⊢
  split at hn
  · next hj =>
    obtain ⟨k, hk, hle⟩ := under_of_kindsLe h hj
    rcases Kind.le_cases hle with rfl | ⟨hpad, -⟩
    · rw [hk]
    · cases hpad
  · next hj =>
    obtain ⟨k, hk, hle⟩ := under_of_kindsLe h hj
    rcases Kind.le_cases hle with rfl | ⟨-, rfl⟩
    · rw [hk]
      exact hn
    · rw [hk]
  · cases hn

theorem Src.ok_mono {s : Src} (h : sh.Le th) (hs : s.ok env sh = true) : s.ok env th = true := by
  cases s with
  | reg r =>
    simp only [Src.ok, bne_iff_ne] at hs ⊢
    exact (h.facts r).ne_nothing hs
  | slot n => exact Src.isVariable_mono h.words hs
  | _ => exact hs

theorem Src.fact_mono (s : Src) (h : sh.Le th) : (s.fact sh).le (s.fact th) := by
  cases s with
  | reg r => exact h.facts r
  | _ => exact .refl _

theorem Setting.isThin_mono (h : sh.Le th) (ht : env.isThin sh.words = true) :
    env.isThin th.words = true := by
  have hle := pads_le_of_kindsLe h.words
  simp only [Setting.isThin, Bool.or_eq_true, decide_eq_true_eq] at ht ⊢
  exact ht.imp_right (Nat.le_trans hle)

/-- An operation is in order for all who know more. -/
theorem Op.effect_mono {o : Op} (h : sh.Le th) {sh' : Shape} (ho : o.effect env sh = some sh') :
    ∃ th', o.effect env th = some th' ∧ sh'.Le th' := by
  have hfact : ∀ r, sh.facts r ≠ .nothing → th.facts r ≠ .nothing := fun r => (h.facts r).ne_nothing
  have hlen := kindsLe_length h.words
  cases o with
  | push s k =>
    obtain ⟨hs, hw, ht, hk, rfl⟩ := effect_push.1 ho
    rw [← hlen] at hw
    refine ⟨_, effect_push.2 ⟨Src.ok_mono h hs, hw, Setting.isThin_mono h ht, hk, rfl⟩, ?_⟩
    exact ⟨kindsLe_cons.2 ⟨k.le_refl, h.words⟩, h.flags, id, h.facts⟩
  | pop r =>
    obtain ⟨ks, hks, rfl⟩ := effect_pop.1 ho
    have hwords := h.words
    rw [hks] at hwords
    obtain ⟨k, ls, hls, hk, hle⟩ := kindsLe_cons_left hwords
    rcases Kind.le_cases hk with rfl | ⟨hpad, -⟩
    · have hle : { sh with words := ks }.Le { th with words := ls } := ⟨hle, h.flags, h.wide, h.facts⟩
      exact ⟨_, effect_pop.2 ⟨ls, hls, rfl⟩, hle.put r (.refl _)⟩
    · cases hpad
  | move s r =>
    obtain ⟨hs, rfl⟩ := effect_move.1 ho
    exact ⟨_, effect_move.2 ⟨Src.ok_mono h hs, rfl⟩, h.put r (s.fact_mono h)⟩
  | store r n =>
    obtain ⟨hr, hn, rfl⟩ := effect_store.1 ho
    exact ⟨_, effect_store.2 ⟨hfact r hr, Src.isVariable_mono h.words hn, rfl⟩, h⟩
  | peek r =>
    obtain ⟨k, ks, hks, hk, rfl⟩ := effect_peek.1 ho
    have hwords := h.words
    rw [hks] at hwords
    obtain ⟨l, ls, hls, hle, -⟩ := kindsLe_cons_left hwords
    have hl : l ≠ .pad := by
      rcases Kind.le_cases hle with rfl | ⟨hpad, -⟩
      · exact hk
      · exact absurd hpad hk
    exact ⟨_, effect_peek.2 ⟨l, ls, hls, hl, rfl⟩, h.put r (.refl _)⟩
  | combine f s r =>
    obtain ⟨hs, hr, hf, rfl⟩ := effect_combine.1 ho
    exact ⟨_, effect_combine.2 ⟨Src.ok_mono h hs, hfact r hr, hf, rfl⟩, h.put r (.refl _)⟩
  | negate r =>
    obtain ⟨hr, rfl⟩ := effect_negate.1 ho
    exact ⟨_, effect_negate.2 ⟨hfact r hr, rfl⟩, h.put r (.refl _)⟩
  | extend =>
    obtain ⟨hr, rfl⟩ := effect_extend.1 ho
    have hput := h.put .rdx (.refl .value)
    exact ⟨_, effect_extend.2 ⟨hfact _ hr, rfl⟩, ⟨hput.words, hput.flags, id, hput.facts⟩⟩
  | divide r =>
    obtain ⟨hw, hr, rfl⟩ := effect_divide.1 ho
    exact ⟨_, effect_divide.2 ⟨h.wide hw, hfact r hr, rfl⟩, (h.put _ (.refl _)).put _ (.refl _)⟩
  | compare s r =>
    obtain ⟨hs, hr, rfl⟩ := effect_compare.1 ho
    exact ⟨_, effect_compare.2 ⟨Src.ok_mono h hs, hfact r hr, rfl⟩, ⟨h.words, id, id, h.facts⟩⟩
  | select o s r =>
    obtain ⟨hf, hs, hr, rfl⟩ := effect_select.1 ho
    exact ⟨_, effect_select.2 ⟨h.flags hf, hfact s hs, hfact r hr, rfl⟩, h.put r (.refl _)⟩
  | grow =>
    obtain ⟨hw, rfl⟩ := effect_grow.1 ho
    rw [← hlen] at hw
    refine ⟨_, effect_grow.2 ⟨hw, rfl⟩, ?_⟩
    exact ⟨kindsLe_cons.2 ⟨Kind.le_refl _, h.words⟩, h.flags, id, h.facts⟩
  | shrink n =>
    obtain ⟨hn, rfl⟩ := effect_shrink.1 ho
    rw [← hlen] at hn
    exact ⟨_, effect_shrink.2 ⟨hn, rfl⟩, ⟨kindsLe_drop h.words _, h.flags, id, h.facts⟩⟩
  | nop =>
    obtain rfl := effect_nop.1 ho
    exact ⟨th, effect_nop.2 rfl, h⟩
  | jump j l =>
    obtain ⟨hj, ⟨ks, hl, hks⟩, rfl⟩ := effect_jump.1 ho
    exact ⟨_, effect_jump.2 ⟨hj.imp_right h.flags, ⟨ks, hl, kindsLe_trans hks h.words⟩, rfl⟩, .fresh h.words⟩
  | exit =>
    obtain rfl := effect_exit.1 ho
    exact ⟨_, effect_exit.2 rfl, .fresh h.words⟩
  | call f =>
    obtain ⟨n, hf, hw, ht, hk, rfl⟩ := effect_call.1 ho
    rw [← hlen] at hw
    refine ⟨_, effect_call.2 ⟨n, hf, hw, Setting.isThin_mono h ht, ?_, rfl⟩, .fresh h.words⟩
    exact take_temps_of_kindsLe h.words hk

/-- **Items are in order for all who know more.** -/
theorem Check.mono {k : List Item} (h : sh.Le th) (hk : Check env sh k) : Check env th k := by
  induction k generalizing sh th with
  | nil => trivial
  | cons i k ih =>
    cases i with
    | label l ks => exact ⟨kindsLe_trans hk.1 h.words, hk.2⟩
    | op o =>
      obtain ⟨sh', ho, hk⟩ := hk
      obtain ⟨th', ho', h'⟩ := Op.effect_mono h ho
      exact ⟨th', ho', ih h' hk⟩

theorem Src.fact_ne_nothing {s : Src} (hs : s.ok env sh = true) : s.fact sh ≠ .nothing := by
  cases s with
  | reg r => simpa [Src.ok, Src.fact] using hs
  | _ => simp [Src.fact]

/-- No operation makes a register unknown. -/
theorem Op.effect_warm {o : Op} (h : o.effect env sh = some th) (hw : sh.Warm) : th.Warm := by
  cases o with
  | push s k =>
    obtain ⟨-, -, -, -, rfl⟩ := effect_push.1 h
    exact hw
  | pop r =>
    obtain ⟨ks, -, rfl⟩ := effect_pop.1 h
    have hks : { sh with words := ks }.Warm := hw
    exact hks.value r
  | move s r =>
    obtain ⟨hs, rfl⟩ := effect_move.1 h
    exact hw.put r (Src.fact_ne_nothing hs)
  | store r n =>
    obtain ⟨-, -, rfl⟩ := effect_store.1 h
    exact hw
  | peek r =>
    obtain ⟨-, -, -, -, rfl⟩ := effect_peek.1 h
    exact hw.value r
  | combine f s r =>
    obtain ⟨-, -, -, rfl⟩ := effect_combine.1 h
    exact hw.value r
  | negate r =>
    obtain ⟨-, rfl⟩ := effect_negate.1 h
    exact hw.value r
  | extend =>
    obtain ⟨-, rfl⟩ := effect_extend.1 h
    exact hw.value .rdx
  | divide r =>
    obtain ⟨-, -, rfl⟩ := effect_divide.1 h
    exact (hw.value .rax).value .rdx
  | compare s r =>
    obtain ⟨-, -, rfl⟩ := effect_compare.1 h
    exact hw
  | select o s r =>
    obtain ⟨-, -, -, rfl⟩ := effect_select.1 h
    exact hw.value r
  | grow =>
    obtain ⟨-, rfl⟩ := effect_grow.1 h
    exact hw
  | shrink n =>
    obtain ⟨-, rfl⟩ := effect_shrink.1 h
    exact hw
  | nop =>
    obtain rfl := effect_nop.1 h
    exact hw
  | jump j l =>
    obtain ⟨-, -, rfl⟩ := effect_jump.1 h
    exact Shape.warm_fresh _
  | exit =>
    obtain rfl := effect_exit.1 h
    exact Shape.warm_fresh _
  | call f =>
    obtain ⟨-, -, -, -, -, rfl⟩ := effect_call.1 h
    exact Shape.warm_fresh _

theorem Check.behind {l : String} {ks : List Kind} {k : List Item} (hk : Check env sh k)
    (hn : ((labels k).map Prod.fst).Nodup) (hl : (l, ks) ∈ labels k) :
    ∃ k', behind l k = some k' ∧ Check env (.fresh ks) k' := by
  induction k generalizing sh with
  | nil => cases hl
  | cons i k ih =>
    cases i with
    | op o =>
      obtain ⟨sh', -, hk⟩ := hk
      exact ih hk hn hl
    | label m ms =>
      obtain ⟨-, hk⟩ := hk
      rw [labels, List.map_cons, List.nodup_cons] at hn
      rcases List.mem_cons.1 hl with heq | hl
      · cases heq
        exact ⟨k, if_pos rfl, hk⟩
      · have hne : l ≠ m := fun h => hn.1 (List.mem_map.2 ⟨_, hl, h⟩)
        obtain ⟨k', hb, hk'⟩ := ih hk hn.2 hl
        exact ⟨k', (if_neg hne).trans hb, hk'⟩

end MicroC
