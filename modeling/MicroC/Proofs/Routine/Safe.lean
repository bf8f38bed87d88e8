import MicroC.Proofs.Routine.Inversion
import MicroC.Proofs.Routine.Shape

/-!
# Routines that are in order

A state has the shape of its place, and so have all callers. From such a state there is always a step, and
it leads to such a state again or fails for a reason that no check could rule out.

* `Suits`, `Shaped`: words and states that have a shape.
* `Awaits`: callers that are in order.
* `Sound`: a state that is in order.
* **`Sound.next`**: it has a step, and stays in order.
-/

namespace MicroC

open Convention

/-! ## Words and their kinds -/

/-- Words of some kinds: all have a value but for padding. -/
inductive Suits : List Kind → List (Option Int64) → Prop
  | nil : Suits [] []
  | cons {k : Kind} {w : Option Int64} {ks : List Kind} {ws : List (Option Int64)}
      (h : k ≠ .pad → w.isSome = true) (hs : Suits ks ws) : Suits (k :: ks) (w :: ws)

namespace Suits

variable {ks : List Kind} {ws : List (Option Int64)}

theorem length_eq (h : Suits ks ws) : ws.length = ks.length := by
  induction h with
  | nil => rfl
  | cons _ _ ih => simp [ih]

theorem drop (h : Suits ks ws) (n : Nat) : Suits (ks.drop n) (ws.drop n) := by
  induction n generalizing ks ws with
  | zero => exact h
  | succ n ih =>
    cases h with
    | nil => exact .nil
    | cons _ hs => exact ih hs

theorem under (h : Suits ks ws) {n : Nat} {k : Kind} (hk : under ks n = some k) :
    ∃ w, MicroC.under ws n = some w ∧ (k ≠ .pad → w.isSome = true) := by
  induction h with
  | nil => cases hk
  | @cons j w ks ws hj hs ih =>
    rw [under_cons] at hk ⊢
    rw [hs.length_eq]
    by_cases hn : n = ks.length
    · rw [if_pos hn] at hk ⊢
      cases hk
      exact ⟨w, rfl, hj⟩
    · rw [if_neg hn] at hk ⊢
      exact ih hk

theorem setUnder (h : Suits ks ws) (n : Nat) (w : Int64) : Suits ks (setUnder ws n (some w)) := by
  induction h with
  | nil => exact .nil
  | @cons j v ks ws hj hs ih =>
    by_cases hn : n < ws.length
    · rw [setUnder_cons hn]
      exact .cons hj ih
    · -- The word on top, or none at all.
      have hset : MicroC.setUnder (v :: ws) n (some w) = (if n = ws.length then some w else v) :: ws := by
        unfold MicroC.setUnder
        rw [List.reverse_cons, List.set_append_right _ _ (by simp; omega), List.length_reverse]
        by_cases heq : n = ws.length
        · simp [heq]
        · rw [if_neg heq, List.set_eq_of_length_le (by simp; omega)]
          simp
      rw [hset]
      refine .cons (fun hk => ?_) hs
      by_cases heq : n = ws.length
      · rw [if_pos heq]
        rfl
      · rw [if_neg heq]
        exact hj hk

theorem weaken {js : List Kind} (h : Suits ks ws) (hle : kindsLe js ks = true) : Suits js ws := by
  induction h generalizing js with
  | nil =>
    cases js with
    | nil => exact .nil
    | cons => cases hle
  | @cons k w ks ws hk hs ih =>
    cases js with
    | nil => cases hle
    | cons j js =>
      obtain ⟨hj, hjs⟩ := kindsLe_cons.1 hle
      refine .cons (fun hpad => hk ?_) (ih hjs)
      rcases Kind.le_cases hj with rfl | ⟨rfl, -⟩
      · exact hpad
      · exact absurd rfl hpad

theorem topValues (h : Suits ks ws) {n : Nat} (hn : ks.take n = List.replicate n .temp) :
    ∃ vs, MicroC.topValues n ws = some vs := by
  induction n generalizing ks ws with
  | zero => exact ⟨[], rfl⟩
  | succ n ih =>
    cases h with
    | nil => simp [List.replicate_succ] at hn
    | @cons k w ks ws hk hs =>
      rw [List.take_succ_cons, List.replicate_succ, List.cons.injEq] at hn
      obtain ⟨rfl, hn⟩ := hn
      obtain ⟨vs, hvs⟩ := ih hs hn
      cases w with
      | none => exact absurd (hk (by decide)) (by simp)
      | some w =>
        refine ⟨w :: vs, ?_⟩
        rw [MicroC.topValues, hvs]
        rfl

end Suits

/-- A state has a shape. -/
structure Shaped (sh : Shape) (s : State) : Prop where
  words : Suits sh.words s.words
  flags : sh.flags = true → s.flags.isSome = true
  wide : sh.wide = true → s.regs .rdx = signWord (s.regs .rax)
  facts : ∀ r w, sh.facts r = .const w → s.regs r = w

namespace Shaped

variable {sh : Shape} {s : State}

theorem put (h : Shaped sh s) (r : Reg) {f : Fact} {w : Int64} (hf : ∀ v, f = .const v → w = v) :
    Shaped (sh.put r f) (s.set r w) where
  words := h.words
  flags := h.flags
  wide hw := by cases hw
  facts q v hq := by
    simp only [Shape.put] at hq
    rw [State.set_regs]
    by_cases hr : q = r
    · rw [if_pos hr] at hq ⊢
      exact hf v hq
    · rw [if_neg hr] at hq ⊢
      exact h.facts q v hq

theorem put_value (h : Shaped sh s) (r : Reg) (w : Int64) : Shaped (sh.put r .value) (s.set r w) :=
  h.put r fun _ hv => by cases hv

theorem fresh {ks : List Kind} (h : Suits ks s.words) : Shaped (.fresh ks) s where
  words := h
  flags hf := by cases hf
  wide hw := by cases hw
  facts _ _ hr := absurd hr Shape.facts_fresh_ne_const

theorem at_rest (h : Shaped sh s) (k : List Item) : Shaped sh { s with rest := k } :=
  ⟨h.words, h.flags, h.wide, h.facts⟩

end Shaped

/-! ## Callers -/

/-- What is asked of a program. -/
structure Mode where
  strict : Bool
  thin : Bool
  /-- Whether the outermost routine has no stack arguments. -/
  guarded : Bool

/-- The number of arguments of a function of a program or of the host. -/
def arityOf (prog : List Subroutine) (f : String) : Option Nat :=
  match prog.find? (·.name == f) with
  | some r => some r.arity
  | none => (Intrinsic.ofName? f).map Intrinsic.arity

/-- What a routine of a program may rely on. -/
def setting (prog : List Subroutine) (mode : Mode) (r : Subroutine) : Setting where
  arityOf := arityOf prog
  arity := r.arity
  labels := labels r.body
  strict := mode.strict
  thin := mode.thin

/-- All routines of a program are in order. -/
structure InOrder (prog : List Subroutine) (mode : Mode) : Prop where
  check : ∀ r ∈ prog, Check (setting prog mode r) (.fresh []) r.body
  labels : ∀ r ∈ prog, ((labels r.body).map Prod.fst).Nodup

/-- Callers that are in order and have passed `n` arguments. -/
inductive Awaits (prog : List Subroutine) (mode : Mode) : Nat → List Caller → Prop
  | outermost {n : Nat} (hn : mode.guarded = true → n ≤ argumentRegisters.length) (regs : Reg → Int64) :
      Awaits prog mode n [⟨none, regs, []⟩]
  | call {n : Nat} {r : Subroutine} {k : List Item} {regs : Reg → Int64} {ks : List Kind}
      {ws : List (Option Int64)} {cs : List Caller} (hr : r ∈ prog)
      (hk : Check (setting prog mode r) (.fresh ks) k) (hw : Suits ks ws) (hl : ks.length ≤ wordLimit)
      (hn : ks.take (stackArguments n) = List.replicate (stackArguments n) .temp)
      (hd : contextDepth (⟨some (r, k), regs, ws⟩ :: cs) ≤ stackWords)
      (h : Awaits prog mode r.arity cs) : Awaits prog mode n (⟨some (r, k), regs, ws⟩ :: cs)

/-- Errors that no check rules out. -/
def Mode.Allows (mode : Mode) : MachineError → Prop
  | .stackOverflow | .divisionByZero | .divisionOverflow => True
  | .invalidAddress _ => ¬ (mode.strict = true ∧ mode.thin = true ∧ mode.guarded = true)
  | _ => False

variable {σ : Type} {prog : List Subroutine} {mode : Mode} {r : Subroutine} {sh th : Shape} {s : State}

/-! ## Sources -/

/-- A source that is in order has a value. -/
theorem Src.read_shaped {src : Src} (hs : Shaped sh s) (ha : Awaits prog mode s.routine.arity s.callers)
    (hok : src.ok (setting prog mode s.routine) sh = true) (junk : Junk) :
    (∃ w, src.read junk s = some (.ok w) ∧ ∀ v, src.fact sh = .const v → w = v) ∨
      ∃ e, src.read junk s = some (.error e) ∧ mode.Allows e := by
  cases src with
  | imm w => exact .inl ⟨w, rfl, fun v hv => by cases hv; rfl⟩
  | reg r => exact .inl ⟨s.regs r, rfl, fun v hv => hs.facts r v hv⟩
  | slot n =>
    simp only [Src.ok, Src.isVariable] at hok
    split at hok
    · next hk =>
      obtain ⟨w, hw, hsome⟩ := hs.words.under hk
      obtain ⟨v, rfl⟩ := Option.isSome_iff_exists.1 (hsome (by decide))
      refine .inl ⟨v, ?_, fun v hv => by cases hv⟩
      rw [Src.read, hw]
      rfl
    · next hk =>
      obtain ⟨w, hw, -⟩ := hs.words.under hk
      rw [Src.read, hw]
      cases w with
      | some w => exact .inl ⟨w, rfl, fun v hv => by cases hv⟩
      | none =>
        have hstrict : mode.strict = false := by simpa [setting] using hok
        cases hword : junk.word with
        | ok w =>
          refine .inl ⟨w, ?_, fun v hv => by cases hv⟩
          rw [Option.map_some, wordValue, hword]
          rfl
        | error a =>
          refine .inr ⟨.invalidAddress a, ?_, ?_⟩
          · rw [Option.map_some, wordValue, hword]
            rfl
          · simp [Mode.Allows, hstrict]
    · cases hok
  | param n =>
    have hn : argumentRegisters.length + n < s.routine.arity := of_decide_eq_true hok
    rw [Src.read]
    cases hc : s.callers with
    | nil =>
      rw [hc] at ha
      cases ha
    | cons a cs =>
      rw [hc] at ha
      dsimp only
      rw [if_pos hn]
      generalize hm : s.routine.arity = m at ha hn
      cases ha with
      | outermost hg regs =>
        refine .inr ⟨_, rfl, ?_⟩
        intro hall
        have := hg hall.2.2
        omega
      | @call _ r k regs ks ws cs hr hk hw hl htemp hd h =>
        -- The caller left a value for every stack argument.
        obtain ⟨vs, hvs⟩ := hw.topValues htemp
        obtain ⟨hlen, hval⟩ := topValues_spec hvs
        have hlt : n < vs.length := by
          rw [hlen, stackArguments]
          omega
        have := hval n _ (List.getElem?_eq_getElem hlt)
        refine .inl ⟨vs[n], ?_, fun v hv => by cases hv⟩
        rw [this]
        rfl

/-! ## Operations on data -/

/-- The stack is not deeper than memory, but for padding. -/
structure Deep (sh : Shape) (s : State) : Prop where
  depth : s.depth ≤ stackWords + pads sh.words
  words : sh.words.length ≤ wordLimit

/-- What an operation on data leads to. -/
def Keeps (mode : Mode) (th : Shape) : Outcome σ → Prop
  | .goes t _ => Shaped th t ∧ Deep th t
  | .halts .. => False
  | .fails e _ => mode.Allows e

theorem overflow_allows (hthin : (setting prog mode r).isThin sh.words = true) (hd : Deep sh s)
    (junk : Junk) : mode.Allows (s.overflow junk) := by
  unfold State.overflow
  split
  · trivial
  · next hslack =>
    have hm : mode.thin = false := by
      cases hm : mode.thin with
      | false => rfl
      | true =>
        simp only [Setting.isThin, setting, hm, Bool.not_true, Bool.false_or, decide_eq_true_eq] at hthin
        have := hd.depth
        omega
    split
    · trivial
    · simp [Mode.Allows, hm]

theorem Keeps.reading {src : Src} (hs : Shaped sh s) (ha : Awaits prog mode s.routine.arity s.callers)
    (hok : src.ok (setting prog mode s.routine) sh = true) (junk : Junk) (host : σ)
    {f : Int64 → Option (Outcome σ)}
    (hf : ∀ w, (∀ v, src.fact sh = .const v → w = v) → ∃ out, f w = some out ∧ Keeps mode th out) :
    ∃ out, Outcome.reading (src.read junk s) host f = some out ∧ Keeps mode th out := by
  rcases Src.read_shaped hs ha hok junk with ⟨w, hw, hfact⟩ | ⟨e, he, hallows⟩
  · rw [hw]
    exact hf w hfact
  · rw [he]
    exact ⟨_, rfl, hallows⟩

theorem Deep.put (hd : Deep sh s) (q : Reg) (f : Fact) (w : Int64) : Deep (sh.put q f) (s.set q w) :=
  ⟨hd.depth, hd.words⟩

theorem Deep.fresh (hd : Deep sh s) (k : List Item) : Deep (.fresh sh.words) { s with rest := k } :=
  ⟨hd.depth, hd.words⟩

theorem Deep.weaken (hd : Deep sh s) {ks : List Kind} (hle : kindsLe ks sh.words = true) (k : List Item) :
    Deep (.fresh ks) { s with rest := k } where
  depth := Nat.le_trans hd.depth (Nat.add_le_add_left (pads_le_of_kindsLe hle) _)
  words := kindsLe_length hle ▸ hd.words

variable [Host σ]

/-- **An operation on data that is in order can be done, and its effect is what is known behind it.** -/
theorem Op.run_safe {o : Op} (ho : o.isData = true)
    (heff : o.effect (setting prog mode s.routine) sh = some th) (hs : Shaped sh s) (hd : Deep sh s)
    (ha : Awaits prog mode s.routine.arity s.callers) (junk : Junk) (host : σ) :
    ∃ out, o.run prog junk s host = some out ∧ Keeps mode th out := by
  cases o with
  | push src k =>
    obtain ⟨hok, hlimit, hthin, hk, rfl⟩ := effect_push.1 heff
    refine Keeps.reading hs ha hok junk host fun w _ => ⟨_, rfl, ?_⟩
    by_cases hroom : s.depth < stackWords
    · rw [if_pos hroom]
      refine ⟨⟨.cons (fun _ => rfl) hs.words, hs.flags, (by rintro ⟨⟩), hs.facts⟩, ?_, hlimit⟩
      simp only [State.depth, List.length_cons] at hroom ⊢
      omega
    · rw [if_neg hroom]
      exact overflow_allows hthin hd junk
  | pop q =>
    obtain ⟨ks, hks, rfl⟩ := effect_pop.1 heff
    have hwords := hs.words
    rw [hks] at hwords
    rw [Op.run]
    generalize hws : s.words = ws at hwords
    cases hwords with
    | @cons _ w _ ws hk hsuits =>
      obtain ⟨v, rfl⟩ := Option.isSome_iff_exists.1 (hk (by decide))
      have hshaped : Shaped { sh with words := ks } { s with words := ws } :=
        ⟨hsuits, hs.flags, hs.wide, hs.facts⟩
      have hdepth := hd.depth
      have hlimit := hd.words
      refine ⟨_, rfl, hshaped.put_value q v, ?_, ?_⟩
      · simp only [State.depth, State.set, Shape.put, hks, hws, pads, List.length_cons] at hdepth ⊢
        omega
      · rw [hks, List.length_cons] at hlimit
        exact Nat.le_of_succ_le hlimit
  | move src q =>
    obtain ⟨hok, rfl⟩ := effect_move.1 heff
    exact Keeps.reading hs ha hok junk host fun w hw => ⟨_, rfl, hs.put q hw, hd.put q _ w⟩
  | store q n =>
    obtain ⟨-, hvar, rfl⟩ := effect_store.1 heff
    have hread : (Src.slot n).ok (setting prog mode s.routine) sh = true := hvar
    have hunder : ∃ w, under s.words n = some w := by
      unfold Src.isVariable at hvar
      split at hvar
      · next hk =>
        obtain ⟨w, hw, -⟩ := hs.words.under hk
        exact ⟨w, hw⟩
      · next hk =>
        obtain ⟨w, hw, -⟩ := hs.words.under hk
        exact ⟨w, hw⟩
      · cases hvar
    obtain ⟨w, hw⟩ := hunder
    have hvalue : (Src.slot n).read junk s = some (wordValue junk w) := by
      rw [Src.read, hw]
      rfl
    rw [Op.run, hw]
    dsimp only
    rw [← hvalue]
    refine Keeps.reading hs ha hread junk host fun _ _ => ⟨_, rfl, ?_, ?_⟩
    · exact ⟨hs.words.setUnder n _, hs.flags, hs.wide, hs.facts⟩
    · exact ⟨by simpa [State.depth] using hd.depth, hd.words⟩
  | peek q =>
    obtain ⟨k, ks, hks, hk, rfl⟩ := effect_peek.1 heff
    have hwords := hs.words
    rw [hks] at hwords
    rw [Op.run]
    generalize hws : s.words = ws at hwords
    cases hwords with
    | @cons _ w _ ws hkind hsuits =>
      obtain ⟨v, rfl⟩ := Option.isSome_iff_exists.1 (hkind hk)
      exact ⟨_, rfl, hs.put_value q v, hd.put q _ v⟩
  | combine f src q =>
    obtain ⟨hok, -, -, rfl⟩ := effect_combine.1 heff
    exact Keeps.reading hs ha hok junk host fun w _ => ⟨_, rfl, hs.put_value q _, hd.put q _ _⟩
  | negate q =>
    obtain ⟨-, rfl⟩ := effect_negate.1 heff
    exact ⟨_, rfl, hs.put_value q _, hd.put q _ _⟩
  | extend =>
    obtain ⟨-, rfl⟩ := effect_extend.1 heff
    have hput := hs.put_value .rdx (signWord (s.regs .rax))
    exact ⟨_, rfl, ⟨hput.words, hput.flags, fun _ => rfl, hput.facts⟩, hd.depth, hd.words⟩
  | divide q =>
    obtain ⟨hw, -, rfl⟩ := effect_divide.1 heff
    rw [Op.run, if_pos (hs.wide hw)]
    refine ⟨_, rfl, ?_⟩
    split
    · trivial
    · split
      · trivial
      · exact ⟨(hs.put_value .rax _).put_value .rdx _, hd.depth, hd.words⟩
  | compare src q =>
    obtain ⟨hok, -, rfl⟩ := effect_compare.1 heff
    refine Keeps.reading hs ha hok junk host fun w _ => ⟨_, rfl, ?_, hd.depth, hd.words⟩
    exact ⟨hs.words, fun _ => rfl, (by rintro ⟨⟩), hs.facts⟩
  | select o src q =>
    obtain ⟨hf, -, -, rfl⟩ := effect_select.1 heff
    obtain ⟨⟨dst, x⟩, hflags⟩ := Option.isSome_iff_exists.1 (hs.flags hf)
    rw [Op.run, hflags]
    refine ⟨_, rfl, ?_⟩
    cases o.holds dst x with
    | true => exact ⟨hs.put_value q _, hd.put q _ _⟩
    | false =>
      -- The register keeps its value.
      have hkept := hs.put_value q (s.regs q)
      rw [s.set_self q] at hkept
      exact ⟨hkept, hd.depth, hd.words⟩
  | grow =>
    obtain ⟨hlimit, rfl⟩ := effect_grow.1 heff
    have hdepth := hd.depth
    refine ⟨_, rfl, ⟨.cons (fun h => absurd rfl h) hs.words, hs.flags, (by rintro ⟨⟩), hs.facts⟩, ?_, hlimit⟩
    simp only [State.depth, List.length_cons, pads] at hdepth ⊢
    omega
  | shrink n =>
    obtain ⟨hn, rfl⟩ := effect_shrink.1 heff
    rw [Op.run, if_pos (by rwa [hs.words.length_eq])]
    have hdepth := hd.depth
    have hlimit := hd.words
    have hlen := hs.words.length_eq
    have hpads := pads_drop (n + 1) sh.words
    have hle := pads_le_length sh.words
    have hle' := pads_le_length (sh.words.drop (n + 1))
    rw [List.length_drop] at hpads hle'
    refine ⟨_, rfl, ⟨hs.words.drop _, hs.flags, (by rintro ⟨⟩), hs.facts⟩, ?_, ?_⟩
    · simp only [State.depth, List.length_drop, hlen] at hdepth ⊢
      omega
    · show (sh.words.drop (n + 1)).length ≤ wordLimit
      rw [List.length_drop]
      omega
  | nop =>
    obtain rfl := effect_nop.1 heff
    exact ⟨_, rfl, hs, hd⟩
  | jump j l => cases ho
  | exit => cases ho
  | call f => cases ho

/-! ## Steps -/

/-- A state that is in order. -/
structure Sound (prog : List Subroutine) (mode : Mode) (s : State) : Prop where
  routine : s.routine ∈ prog
  shape : ∃ sh, Check (setting prog mode s.routine) sh s.rest ∧ Shaped sh s ∧ Deep sh s
  callers : Awaits prog mode s.routine.arity s.callers

theorem Awaits.depth {n : Nat} {cs : List Caller} (h : Awaits prog mode n cs) :
    contextDepth cs ≤ stackWords := by
  cases h with
  | outermost hn regs => simp [contextDepth, linkWords, stackWords]
  | call hr hk hw hl hn hd h => exact hd

/-- What a step leads to. -/
def Safely (prog : List Subroutine) (mode : Mode) : Outcome σ → Prop
  | .goes t _ => Sound prog mode t
  | .halts .. => True
  | .fails e _ => mode.Allows e ∨ ∃ host : σ, (Host.read host).1 = .error e

theorem Intrinsic.call_error {i : Intrinsic} {args : List Int64} {host host' : σ} {e : MachineError}
    (h : i.call args host = (.error e, host')) : (Host.read host).1 = .error e := by
  cases i with
  | read =>
    rw [show Host.read host = (.error e, host') from h]
  | _ => cases h

theorem Sound.leave (h : Sound prog mode s) (host : σ) :
    ∃ out, s.leave host = some out ∧ Safely prog mode out := by
  have hc := h.callers
  unfold State.leave
  generalize s.callers = cs at hc
  cases hc with
  | outermost hn regs => exact ⟨_, rfl, trivial⟩
  | call hr hk hw hl hn hd hcs =>
    refine ⟨_, rfl, hr, ⟨_, hk, .fresh hw, ?_, hl⟩, hcs⟩
    simp only [State.depth, contextDepth] at hd ⊢
    omega

theorem Sound.call {f : String} {k : List Item} (h : Sound prog mode s) (hin : InOrder prog mode)
    (hrest : s.rest = .op (.call f) :: k) (junk : Junk) (host : σ) :
    ∃ out, (Op.call f).run prog junk { s with rest := k } host = some out ∧ Safely prog mode out := by
  obtain ⟨sh, hcheck, hs, hd⟩ := h.shape
  rw [hrest] at hcheck
  obtain ⟨th, heff, hk⟩ := hcheck
  obtain ⟨n, hf, heven, hthin, htemp, rfl⟩ := Op.effect_call.1 heff
  have hlen := hs.words.length_eq
  rw [Op.run, if_pos (show s.words.length % 2 = 0 by rw [hlen, heven]), State.call]
  have hf' : arityOf prog f = some n := hf
  rw [arityOf] at hf'
  cases hfind : prog.find? (·.name == f) with
  | some r =>
    rw [hfind] at hf'
    cases hf'
    obtain ⟨hr, -⟩ := find?_mem hfind
    refine ⟨_, rfl, ?_⟩
    by_cases hroom : s.depth + linkWords ≤ stackWords
    · rw [if_pos (show State.depth { s with rest := k } + linkWords ≤ stackWords from hroom)]
      refine ⟨hr, ⟨_, hin.check r hr, .fresh .nil, ?_, Nat.zero_le _⟩, ?_⟩
      · simp only [State.depth, entryState, contextDepth, List.length_nil] at hroom ⊢
        omega
      · refine .call h.routine hk hs.words hd.words htemp ?_ h.callers
        simp only [State.depth, contextDepth] at hroom ⊢
        omega
    · rw [if_neg (show ¬ State.depth { s with rest := k } + linkWords ≤ stackWords from hroom)]
      have hd' : Deep sh { s with rest := k } := ⟨hd.depth, hd.words⟩
      exact .inl (overflow_allows hthin hd' junk)
  | none =>
    rw [hfind] at hf'
    obtain ⟨i, hi, harity⟩ := Option.map_eq_some_iff.1 hf'
    obtain ⟨vs, hvs⟩ := hs.words.topValues htemp
    have hargs : State.arguments { s with rest := k } i.arity =
        some ((Reg.arguments.take i.arity).map s.regs ++ vs) := by
      rw [State.arguments, harity]
      show (topValues _ s.words).map _ = _
      rw [hvs]
      rfl
    dsimp only
    rw [hi]
    dsimp only
    rw [hargs]
    dsimp only
    cases hcall : i.call ((Reg.arguments.take i.arity).map s.regs ++ vs) host with
    | mk res host' =>
      cases res with
      | ok w => exact ⟨_, rfl, h.routine, ⟨_, hk, .fresh hs.words, hd.depth, hd.words⟩, h.callers⟩
      | error e => exact ⟨_, rfl, .inr ⟨host, Intrinsic.call_error hcall⟩⟩

/-- **A state that is in order has a step, and stays in order.** -/
theorem Sound.next (h : Sound prog mode s) (hin : InOrder prog mode) (junk : Junk) (host : σ) :
    ∃ out, s.next prog junk host = some out ∧ Safely prog mode out := by
  obtain ⟨sh, hcheck, hs, hd⟩ := h.shape
  unfold State.next
  cases hrest : s.rest with
  | nil => exact h.leave host
  | cons i k =>
    rw [hrest] at hcheck
    cases i with
    | label l ks =>
      obtain ⟨hle, hk⟩ := hcheck
      exact ⟨_, rfl, h.routine, ⟨_, hk, .fresh (hs.words.weaken hle), hd.weaken hle _⟩, h.callers⟩
    | op o =>
      obtain ⟨th, heff, hk⟩ := hcheck
      cases o with
      | jump j l =>
        obtain ⟨hj, ⟨ks, hl, hle⟩, rfl⟩ := Op.effect_jump.1 heff
        obtain ⟨k', hb, hk'⟩ := (hin.check _ h.routine).behind (hin.labels _ h.routine) hl
        have htaken : ∃ b, j.taken? s.flags = some b := by
          rcases hj with rfl | hflags
          · exact ⟨true, rfl⟩
          · obtain ⟨x, hx⟩ := Option.isSome_iff_exists.1 (hs.flags hflags)
            rw [hx]
            cases j <;> exact ⟨_, rfl⟩
        obtain ⟨b, hb'⟩ := htaken
        dsimp only [Op.run]
        rw [hb']
        cases b with
        | false => exact ⟨_, rfl, h.routine, ⟨_, hk, .fresh hs.words, hd.fresh _⟩, h.callers⟩
        | true =>
          dsimp only
          rw [hb]
          exact ⟨_, rfl, h.routine, ⟨_, hk', .fresh (hs.words.weaken hle), hd.weaken hle _⟩, h.callers⟩
      | exit => exact ⟨_, rfl, h.routine, ⟨_, trivial, hs.at_rest [], hd.depth, hd.words⟩, h.callers⟩
      | call f => exact h.call hin hrest junk host
      | _ =>
        have hd' : Deep sh { s with rest := k } := ⟨hd.depth, hd.words⟩
        obtain ⟨out, hout, hkeeps⟩ := Op.run_safe (s := { s with rest := k }) rfl heff (hs.at_rest k) hd' h.callers junk host
        refine ⟨out, hout, ?_⟩
        cases out with
        | goes t host' =>
          obtain ⟨hp, -⟩ := Op.samePlace rfl hout
          refine ⟨hp.routine ▸ h.routine, ⟨th, ?_, hkeeps⟩, ?_⟩
          · rw [hp.rest, hp.routine]
            exact hk
          · rw [hp.callers, hp.routine]
            exact h.callers
        | halts w host' => exact hkeeps.elim
        | fails e host' => exact .inl hkeeps

end MicroC
