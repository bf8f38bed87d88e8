import Mathlib.Data.Nat.Find
import MicroC.Proofs.Emission.Completions
import MicroC.Proofs.Emission.Order
import MicroC.Proofs.Routine.Operand

/-!
# On the way through a routine

A stretch of code has only one way in and one way out, so a run that enters one and comes to a place behind the
next has come by the place between them. What the first of them leaves on the stack, the second one keeps.

* `Stretch.arrives`: a run stays in a stretch until it comes to its end.
* **`Running.passes`**: a run comes by the place between two stretches of code.
* `Running.pops`: words are popped into registers.
* **`Running.keeps_top`**: the word that one stretch leaves on top of the stack, behind the next one.
* `ArgsCode.split`, **`Running.passes_argument`**: the code of the arguments of a call, and one of them at the call.
* `Running.calls`, **`Running.reads_parameter`**: the callee and its parameters.
-/

namespace MicroC

open Convention Code

variable {σ : Type} [Host σ] {code : Code} {prog : List Subroutine} {mode : Mode} {s t : State}
  {x y z : Point σ} {m n : Nat}

/-! ## First arrivals -/

namespace Code.Traverses

variable {stop : Nat}

theorem refl (hx : x.pc = stop) : code.Traverses stop x x :=
  ⟨⟨0, .refl x, fun _ hi => absurd hi (Nat.not_lt_zero _)⟩, rfl, hx⟩

theorem eq_of_pc (h : code.Traverses stop x z) (hx : x.pc = stop) : x = z := by
  obtain ⟨n, hruns, hfirst⟩ := h.runs
  cases n with
  | zero => exact hruns
  | succ n => exact absurd hx ((hfirst 0 n.succ_pos x (.refl x)).2 rfl)

theorem tail (h : code.Traverses stop x z) (hx : x.pc ≠ stop) (hy : code.Runs 1 x y)
    (hlen : y.cpu.returns.length = x.cpu.returns.length) : code.Traverses stop y z := by
  obtain ⟨n, hruns, hfirst⟩ := h.runs
  cases n with
  | zero =>
    cases hruns
    exact absurd h.stops hx
  | succ n =>
    refine ⟨⟨n, hruns.after hy n.succ_pos, fun i hi w hw => ?_⟩, h.returned.trans hlen.symm, h.stops⟩
    rw [hlen]
    exact hfirst (1 + i) (by omega) w (hy.trans hw)

end Code.Traverses

/-! ## To the end of a stretch -/

namespace Stretch

variable {g : Stretch}

/-- **A run stays in a stretch until it comes to its end**, as long as no return leads out of the activation. -/
theorem arrives (hin : InOrder prog mode) (hg : g.routine ∈ prog) (htracks : Tracks code prog mode m s x t y)
    (h : g.Holds s) (hstay : ∀ i ≤ m, ∀ w, code.Runs i x w → g.callers.length ≤ w.cpu.returns.length) :
    (∃ i ≤ m, ∃ w, code.Runs i x w ∧ w.cpu.returns.length = g.callers.length ∧ w.pc = pcOf prog g.routine g.back) ∨
      g.Holds t := by
  induction htracks with
  | refl hs => exact .inr h
  | @step m s t u x y y' junk hs hnext hr htracks ih =>
    by_cases hend : s.routine = g.routine ∧ s.rest = g.back ∧ s.callers = g.callers
    · obtain ⟨hroutine, hrest, hcallers⟩ := hend
      refine .inl ⟨0, Nat.zero_le _, x, .refl x, ?_, ?_⟩
      · rw [hs.length_returns, hcallers]
      · rw [hs.represents.pc, hroutine, hrest]
    · rcases g.step (hin.labels _ hg) h hend hnext with hheld | hless
      · rcases ih hheld fun i hi w hw => hstay _ (Nat.add_le_add_left hi _) w (hr.trans hw) with
          ⟨i, hi, w, hw, hplace⟩ | hheld
        · exact .inl ⟨_, Nat.add_le_add_left hi _, w, hr.trans hw, hplace⟩
        · exact .inr hheld
      · -- A return would have led out of the activation.
        have hy := hstay _ (Nat.le_add_right _ m) y hr
        rw [htracks.first.length_returns] at hy
        exact absurd hless (Nat.not_lt.2 hy)

omit [Host σ] in
/-- Inside a stretch there is more to come than behind it. -/
theorem Holds.not_behind (himp : code.Implements prog) (hg : g.routine ∈ prog) (hs : Running prog mode s x)
    (h : g.Holds s) (hlen : x.cpu.returns.length = g.callers.length) {k : List Item} (hk : k <:+ g.routine.body)
    (hpos : 0 < width k) (hless : width k < width g.back) : x.pc ≠ pcOf prog g.routine k := by
  intro hpc
  have hplace := pcOf_inj himp.names hs.located.routine hg hs.located.rest hk (hs.represents.pc.symm.trans hpc)
  cases h with
  | inside hr hrest hc h =>
    rw [hrest, width_append] at hplace
    omega
  | calling hc hb h =>
    have hreturned := hs.length_returns.symm.trans hlen
    rw [hc, List.length_append, List.length_cons] at hreturned
    omega
  | leaving hrest hc =>
    rw [hrest, width_nil] at hplace
    omega

/-- A run that has entered a stretch and is at a place behind it has been at its end. -/
theorem comes_by (himp : code.Implements prog) (hin : InOrder prog mode) (hg : g.routine ∈ prog)
    (hs : Running prog mode s x) (h : g.Holds s) (hlen : x.cpu.returns.length = g.callers.length)
    {k : List Item} (hk : k <:+ g.routine.body) (hpos : 0 < width k) (hless : width k < width g.back)
    (hz : code.Traverses (pcOf prog g.routine k) x z) :
    ∃ y, code.Traverses (pcOf prog g.routine g.back) x y ∧ code.Traverses (pcOf prog g.routine k) y z := by
  classical
  obtain ⟨n, hruns, hfirst⟩ := hz.runs
  have hcomes : ∃ i, i ≤ n ∧ ∃ y, code.Runs i x y ∧ y.cpu.returns.length = g.callers.length ∧
      y.pc = pcOf prog g.routine g.back := by
    obtain ⟨t, y, m, j, htracks, hj, hsum, hlast⟩ := hs.tracks himp hin hruns
    rcases Nat.eq_zero_or_pos j with rfl | hjpos
    · cases hj
      have hstay : ∀ i ≤ m, ∀ w, code.Runs i x w → g.callers.length ≤ w.cpu.returns.length := by
        intro i hi w hw
        rcases Nat.lt_or_ge i n with hlt | hge
        · rw [← hlen]
          exact (hfirst i hlt w hw).1
        · have hall : i = n := by omega
          have hsame := hruns.after hw (Nat.le_of_eq hall)
          rw [hall, Nat.sub_self] at hsame
          rw [show w = z from hsame, hz.returned, hlen]
      rcases arrives hin hg htracks h hstay with ⟨i, hi, w, hw, hplace⟩ | hheld
      · exact ⟨i, by omega, w, hw, hplace⟩
      · exact absurd hz.stops (hheld.not_behind himp hg htracks.last (hz.returned.trans hlen) hk hpos hless)
    · -- No step is on its way through the place of an item.
      have hbetween := (htracks.last.between himp hj hjpos (hlast.resolve_left (Nat.ne_of_gt hjpos))).1
      rw [hz.stops] at hbetween
      exact absurd hbetween (not_between himp.names hg hk)
  obtain ⟨hi, y, hy, hylen, hypc⟩ := Nat.find_spec hcomes
  refine ⟨y, ⟨⟨_, hy, fun j hj w hw => ?_⟩, hylen.trans hlen.symm, hypc⟩,
    ⟨⟨_, hruns.after hy hi, fun j hj w hw => ?_⟩, ?_, hz.stops⟩⟩
  · refine ⟨(hfirst j (by omega) w hw).1, fun hwlen hwpc => Nat.find_min hcomes hj ⟨by omega, w, hw, ?_, hwpc⟩⟩
    exact hwlen.trans hlen
  · rw [hylen, ← hlen]
    exact hfirst (Nat.find hcomes + j) (by omega) w (hy.trans hw)
  · rw [hz.returned, hylen, hlen]

end Stretch

/-- **A run comes by the place between two stretches of code.** -/
theorem Running.passes (himp : code.Implements prog) (hin : InOrder prog mode) (hs : Running prog mode s x)
    {r : Subroutine} (hr : r ∈ prog) {front items rest back : List Item}
    (hbody : r.body = front ++ (items ++ (rest ++ back))) (hrest : 0 < width rest) (hback : 0 < width back)
    {keep : Nat → Prop} {d d' : Nat} (hwalk : Walk keep (labels items) d items d') (hkeep : ∀ i, keep i → i < d)
    (hpc : x.pc = pcOf prog r (items ++ (rest ++ back))) (hlen : s.words.length = d)
    (hz : code.Traverses (pcOf prog r back) x z) :
    ∃ y, code.Traverses (pcOf prog r (rest ++ back)) x y ∧ code.Traverses (pcOf prog r back) y z := by
  by_cases hitems : width items = 0
  · refine ⟨x, .refl ?_, hz⟩
    simpa only [pcOf, width_append, hitems, Nat.zero_add] using hpc
  · obtain ⟨k, hk, hentered⟩ := hs.enters himp hin hr hbody (Nat.pos_of_ne_zero hitems) hwalk hkeep hpc hlen
    have hsuffix : back <:+ r.body := ⟨front ++ (items ++ rest), by rw [hbody]; simp⟩
    refine Stretch.comes_by himp hin hr hk hentered hs.length_returns hsuffix hback ?_ hz
    show width back < width (rest ++ back)
    rw [width_append]
    omega

/-! ## Words in registers -/

/-- **Words are popped into registers**, in the order of the stack. -/
theorem Running.pops (himp : code.Implements prog) (hin : InOrder prog mode) (hs : Running prog mode s x)
    {rs : List Reg} {k : List Item} (hrs : rs.Nodup) (hrest : s.rest = popItems rs ++ k)
    (hz : code.Traverses (pcOf prog s.routine k) x z) :
    ∃ vs ws t, s.words = vs.map some ++ ws ∧ vs.length = rs.length ∧ Running prog mode t z ∧
      t.At s.routine s.callers k ws ∧ rs.map t.regs = vs ∧ ∀ q ∉ rs, t.regs q = s.regs q := by
  induction rs generalizing s x with
  | nil =>
    obtain rfl := hz.eq_of_pc (by rw [hs.represents.pc, hrest]; rfl)
    exact ⟨[], s.words, s, rfl, rfl, hs, ⟨rfl, rfl, hrest, rfl⟩, rfl, fun _ _ => rfl⟩
  | cons q rs ih =>
    obtain ⟨hq, hrs⟩ := List.nodup_cons.1 hrs
    obtain ⟨junk, hdoes⟩ := hs.does himp
    obtain ⟨out, hout, -⟩ := hs.sound.next hin junk x.host
    have hdone := hdoes out hout
    have hpop : s.rest = .op (.pop q) :: (popItems rs ++ k) := hrest
    have hrun := hout
    rw [State.next, hpop] at hrun
    dsimp only [Op.run] at hrun
    split at hrun
    · next w ws hw =>
      cases hrun
      obtain ⟨y, hy, hrep, hhost⟩ := hdone
      rw [State.cost, hpop] at hy
      have ht := hs.goes hin (hout.trans (by rw [hhost])) hrep
      have hlen : y.cpu.returns.length = x.cpu.returns.length := by
        rw [ht.length_returns, hs.length_returns]
        rfl
      have hne : x.pc ≠ pcOf prog s.routine k := by
        have hwidth := width_le_of_suffix hs.located.rest
        rw [hs.represents.pc, hpop]
        rw [hpop, width_op, width_append] at hwidth
        simp only [pcOf, width_op, width_append]
        omega
      obtain ⟨vs, us, u, hwords, hvs, hu, hat, hregs, hother⟩ := ih ht hrs rfl (hz.tail hne hy hlen)
      have hall : s.words = some w :: ws := hw
      refine ⟨w :: vs, us, u, ?_, by rw [List.length_cons, List.length_cons, hvs], hu, hat, ?_, fun p hp => ?_⟩
      · rw [hall, show ws = vs.map some ++ us from hwords]
        rfl
      · rw [List.map_cons, hregs, hother q hq, State.set_regs, if_pos rfl]
      · rw [List.mem_cons, not_or] at hp
        rw [hother p hp.2, State.set_regs, if_neg hp.1]
    · cases hrun

/-! ## The word on top of the stack -/

theorem Mirrors.load_top {c : Cpu} {w : Int64} (h : Mirrors prog s c) (hlen : s.words.length = m + 1)
    (hw : under s.words m = some (some w)) : c.load c.rsp = .ok w := by
  have hunder : under (s.words ++ context prog s.callers) (contextDepth s.callers + m) = some (some w) := by
    rw [Mirrors.under_slot, hw]
  obtain ⟨hlt, hstack⟩ := h.holds.word _ w hunder
  have hrsp : c.rsp = (addr (contextDepth s.callers + m + 1)).toUInt64.toNat := by
    rw [Cpu.rsp, h.holds.rsp, Mirrors.length_stack, State.depth, hlen, Nat.add_comm, Nat.add_assoc]
  rw [Cpu.load, hrsp, slot?_addr hlt]
  exact congrArg Except.ok hstack

/-- **The word that a stretch leaves on top of the stack**, behind another stretch that keeps it and behind pops. -/
theorem Running.keeps_top (himp : code.Implements prog) (hin : InOrder prog mode) (hs : Running prog mode s x)
    {r : Subroutine} (hr : r ∈ prog) {front items is k : List Item} {rs : List Reg}
    (hbody : r.body = front ++ (items ++ (is ++ (popItems rs ++ k)))) (hpops : rs ≠ []) (hrs : rs.Nodup)
    (hk : 0 < width k) {d d' : Nat} (hitems : Walk (fun _ => False) (labels items) d items (m + 1))
    (his : Walk (· = m) (labels is) (m + 1) is d') (hlen : s.words.length = d)
    (hpc : x.pc = pcOf prog r (items ++ (is ++ (popItems rs ++ k)))) (hz : code.Traverses (pcOf prog r k) x z) :
    ∃ y t vs ws, code.Traverses (pcOf prog r (is ++ (popItems rs ++ k))) x y ∧ code.Traverses (pcOf prog r k) y z ∧
      Running prog mode t z ∧ t.routine = r ∧ t.rest = k ∧ t.words = ws ∧ rs.map t.regs = vs ∧
      vs.length = rs.length ∧ (vs.map some ++ ws).length = d' ∧
      ∀ w, under (vs.map some ++ ws) m = some (some w) → y.cpu.load y.cpu.rsp = .ok w := by
  obtain ⟨q, qs, rfl⟩ := List.exists_cons_of_ne_nil hpops
  have hpos : 0 < width (popItems (q :: qs)) := by
    rw [popItems, List.map_cons, width_op]
    exact Nat.succ_pos _
  have hbody' : r.body = (front ++ items) ++ (is ++ (popItems (q :: qs) ++ k)) := by rw [hbody, List.append_assoc]
  have hkeep : ∀ i, i = m → i < m + 1 := fun i hi => hi ▸ Nat.lt_succ_self m
  -- Behind the items the run goes on from a state that knows all words.
  have hsplit : r.body = front ++ (items ++ ((is ++ popItems (q :: qs)) ++ k)) := by rw [hbody, List.append_assoc is]
  obtain ⟨y, hxy, hyz⟩ := hs.passes himp hin hr hsplit (by rw [width_append]; omega) hk hitems (fun _ hi => hi.elim)
    (by rw [hpc, List.append_assoc is]) hlen hz
  rw [List.append_assoc] at hxy
  obtain ⟨t₁, ht₁, -, hlen₁, -⟩ := hs.crosses himp hin hr hbody (by rw [width_append, width_append]; omega) hitems
    (fun _ hi => hi.elim) hpc hlen hxy
  have hfill := ht₁.fill
  have hfilled : (t₁.fill y.cpu.word?).words.length = m + 1 := (length_fill _ _).trans hlen₁
  obtain ⟨y', hyy', hyz'⟩ := hfill.passes himp hin hr hbody' hpos hk his hkeep hxy.stops hfilled hyz
  obtain ⟨t₂, ht₂, -, hlen₂, hkept⟩ := hfill.crosses himp hin hr hbody' (by rw [width_append]; omega) his hkeep
    hxy.stops hfilled hyy'
  have hsuffix : popItems (q :: qs) ++ k <:+ r.body := ⟨front ++ items ++ is, by rw [hbody']; simp⟩
  obtain ⟨hroutine, hat⟩ := ht₂.at_op himp hin hr hsuffix hyy'.stops
  obtain ⟨vs, ws, t, hwords, hvs, ht, hplace, hregs, -⟩ := hat.pops himp hin hrs rfl (by rw [hroutine]; exact hyz')
  refine ⟨y, t, vs, ws, hxy, hyz, ht, hplace.routine.trans hroutine, hplace.rest, hplace.words, hregs, hvs, ?_,
    fun w hw => ?_⟩
  · rw [← hwords]
    exact hlen₂
  · refine hfill.represents.mirrors.load_top hfilled ?_
    rw [← hkept m rfl, ← hw, ← hwords]

/-! ## The arguments of a call -/

section Arguments

variable {c : Meaning} {slots : List NodeId} {ks : List Kind} {es fs args : List Expr} {e : Expr} {is : List Item}

theorem ArgsCode.split (h : ArgsCode c slots ks n (es ++ e :: fs) is m) :
    ∃ is₁ is₂ is₃ n₁ n₂, is = is₁ ++ (is₂ ++ is₃) ∧ ArgsCode c slots ks n fs is₁ n₁ ∧
      ExprCode c slots (List.replicate fs.length .temp ++ ks) n₁ .temp e is₂ n₂ ∧
        ArgsCode c slots (List.replicate (fs.length + 1) .temp ++ ks) n₂ es is₃ m := by
  induction es generalizing is m with
  | nil =>
    cases h with
    | @cons _ _ n₁ _ _ _ is js hfs he => exact ⟨js, is, [], n₁, m, by rw [List.append_nil], hfs, he, .nil⟩
  | cons e' es ih =>
    cases h with
    | @cons _ _ n' _ _ _ is js hes he' =>
      obtain ⟨is₁, is₂, is₃, n₁, n₂, rfl, hfs, he, hes'⟩ := ih hes
      refine ⟨is₁, is₂, is₃ ++ is, n₁, n₂, by simp, hfs, he, .cons hes' ?_⟩
      rw [← List.append_assoc, List.replicate_append_replicate]
      have hlen : (es ++ e :: fs).length = es.length + (fs.length + 1) := List.length_append
      exact hlen ▸ he'

theorem spares_top (hm : slots.length ≤ m) (symbols : SymbolTable) (es : List Expr) :
    Spares (· = m) (Expr.Sets symbols slots es) := by
  rintro i rfl ⟨_, _, _, _, _, _, -, -, hn⟩
  have := slotNumber?_le hn
  omega

omit [Host σ] in
theorem Running.arguments (hs : Running prog mode s x) {f : String} {k : List Item}
    (hrest : s.rest = .op (.call f) :: k) (hf : arityOf prog f = some n) : ∃ vs, s.arguments n = some vs := by
  obtain ⟨sh, hcheck, hshaped, -⟩ := hs.sound.shape
  rw [hrest] at hcheck
  obtain ⟨th, heff, -⟩ := hcheck
  obtain ⟨n', hn', -, -, htemps, -⟩ := Op.effect_call.1 heff
  cases (show arityOf prog f = some n' from hn').symm.trans hf
  obtain ⟨vs, hvs⟩ := hshaped.words.topValues htemps
  exact ⟨_, by rw [State.arguments, hvs]; rfl⟩

/-- Where the values of arguments have been on the stack before the first of them were popped. -/
theorem State.under_of_arguments {vs args : List Int64} (hargs : s.arguments n = some args)
    (hregs : (Reg.arguments.take n).map s.regs = vs) {i : Nat} (hi : i < n) :
    ∃ w, args[i]? = some w ∧
      under (vs.map some ++ s.words) ((vs.map some ++ s.words).length - 1 - i) = some (some w) := by
  obtain ⟨us, hus, rfl⟩ := Option.map_eq_some_iff.1 hargs
  obtain ⟨hlen, hval⟩ := topValues_spec hus
  rw [hregs]
  have hall : (vs ++ us).length = n := by rw [← hregs]; exact length_arguments hargs
  have hlt : i < (vs ++ us).length := hall ▸ hi
  have hget : (vs.map some ++ s.words)[i]? = some (some (vs ++ us)[i]) := by
    rcases Nat.lt_or_ge i vs.length with hreg | hstack
    · rw [List.getElem?_append_left (by rwa [List.length_map]), List.getElem?_map, List.getElem_append_left hreg,
        List.getElem?_eq_getElem hreg]
      rfl
    · rw [List.getElem?_append_right (by rwa [List.length_map]), List.length_map, List.getElem_append_right hstack]
      exact hval _ _ (List.getElem?_eq_getElem _)
  have hbound := (List.getElem?_eq_some_iff.1 hget).1
  refine ⟨_, List.getElem?_eq_getElem hlt, ?_⟩
  rw [under, List.getElem?_reverse (by omega), ← hget]
  congr 1
  omega

/-- **What an argument of a call was computed to is what the call finds**, whatever was computed in between. -/
theorem Running.passes_argument (himp : code.Implements prog) (hin : InOrder prog mode) (hs : Running prog mode s x)
    {r : Subroutine} (hr : r ∈ prog) {front k : List Item} {p : Nat} {f : String}
    (hargs : ArgsCode c slots (List.replicate p .pad ++ ks) n (es ++ e :: fs) is m)
    (harity : arityOf prog f = some (es ++ e :: fs).length) (hslots : slots.length ≤ ks.length)
    (hbody : r.body = front ++ (growItems p ++ (is ++
      (popItems (Reg.arguments.take (es ++ e :: fs).length) ++ .op (.call f) :: k))))
    (hlen : s.words.length = ks.length)
    (hpc : x.pc = pcOf prog r (growItems p ++ (is ++
      (popItems (Reg.arguments.take (es ++ e :: fs).length) ++ .op (.call f) :: k))))
    (hz : code.Traverses (pcOf prog r (.op (.call f) :: k)) x z) :
    ∃ is₁ is₂ is₃ n₁ n₂ y t vs w, is = is₁ ++ (is₂ ++ is₃) ∧
      ArgsCode c slots (List.replicate p .pad ++ ks) n fs is₁ n₁ ∧
      ExprCode c slots (List.replicate fs.length .temp ++ (List.replicate p .pad ++ ks)) n₁ .temp e is₂ n₂ ∧
      code.Traverses (pcOf prog r (is₃ ++
        (popItems (Reg.arguments.take (es ++ e :: fs).length) ++ .op (.call f) :: k))) x y ∧
      code.Traverses (pcOf prog r (.op (.call f) :: k)) y z ∧ y.cpu.load y.cpu.rsp = .ok w ∧
      Running prog mode t z ∧ t.rest = .op (.call f) :: k ∧ t.arguments (es ++ e :: fs).length = some vs ∧
      vs[es.length]? = some w := by
  obtain ⟨is₁, is₂, is₃, n₁, n₂, rfl, hfs, he, hes⟩ := hargs.split
  have hpad : (List.replicate p Kind.pad ++ ks).length = ks.length + p := by
    rw [List.length_append, List.length_replicate, Nat.add_comm]
  have htemps : ∀ j, (List.replicate j Kind.temp ++ (List.replicate p Kind.pad ++ ks)).length = ks.length + p + j := by
    intro j
    rw [List.length_append, List.length_replicate, hpad, Nat.add_comm]
  have hall : (es ++ e :: fs).length = es.length + (fs.length + 1) := List.length_append
  -- What is computed later lies below the word of the argument.
  have hitems : Walk (fun _ => False) (labels (growItems p ++ (is₁ ++ is₂))) ks.length (growItems p ++ (is₁ ++ is₂))
      (ks.length + p + fs.length + 1) := by
    have hlabels : ∀ y ∈ labels is₁ ++ labels is₂, y ∈ labels (growItems p ++ (is₁ ++ is₂)) := by
      intro y hy
      rw [labels_append, labels_append]
      exact List.mem_append_right _ hy
    have hbehind := hfs.walk .none .none fun y hy => hlabels y (List.mem_append_left _ hy)
    have hvalue := he.walk .none .none fun y hy => hlabels y (List.mem_append_right _ hy)
    rw [hpad] at hbehind
    rw [htemps] at hvalue
    exact (walk_growItems .none p).append (hbehind.append hvalue)
  have his : Walk (· = ks.length + p + fs.length) (labels is₃) (ks.length + p + fs.length + 1) is₃
      (ks.length + p + (es ++ e :: fs).length) := by
    have hunder : Under (· = ks.length + p + fs.length)
        (List.replicate (fs.length + 1) Kind.temp ++ (List.replicate p Kind.pad ++ ks)).length := by
      rw [htemps]
      exact fun i hi => hi ▸ Nat.lt_succ_self _
    have hwalk := hes.walk hunder (spares_top (by omega) _ _) fun y hy => hy
    rw [htemps] at hwalk
    rwa [hall, Nat.add_comm es.length, ← Nat.add_assoc]
  have hregs : Reg.arguments.take (es ++ e :: fs).length ≠ [] := by
    rw [hall, ← Nat.add_assoc]
    exact List.cons_ne_nil _ _
  have hnodup : (Reg.arguments.take (es ++ e :: fs).length).Nodup :=
    List.Sublist.nodup (List.take_sublist _ _) (by decide)
  rw [List.append_assoc, List.append_assoc, ← List.append_assoc is₁, ← List.append_assoc (growItems p)] at hbody hpc
  obtain ⟨y, t, vs, ws, hxy, hyz, ht, -, hrest, hwords, hvs, -, hlen', hload⟩ :=
    hs.keeps_top himp hin hr hbody hregs hnodup (by rw [width_op]; exact Nat.succ_pos _) hitems his hlen hpc hz
  obtain ⟨args, hargs'⟩ := ht.arguments hrest harity
  obtain ⟨w, hw, hunder⟩ := State.under_of_arguments hargs' hvs (i := es.length) (by omega)
  refine ⟨is₁, is₂, is₃, n₁, n₂, y, t, args, w, rfl, hfs, he, hxy, hyz, hload w ?_, ht, hrest, hargs', hw⟩
  rw [hwords, hlen', hall] at hunder
  rw [← hunder]
  congr 1
  omega

end Arguments

/-! ## The callee -/

section Callee

variable {f : String} {k : List Item} {q : Subroutine} {v : Point σ}

/-- A call of a routine is in front of the body of the routine once its frame is set up. -/
theorem Running.calls (himp : code.Implements prog) (hin : InOrder prog mode) (hs : Running prog mode s x)
    (hrest : s.rest = .op (.call f) :: k) (hf : prog.find? (·.name == f) = some q)
    (hv : code.Runs (1 + entryWidth) x v) :
    Running prog mode (entryState q ⟨some (s.routine, k), s.regs, s.words⟩ s.callers s.flags) v := by
  have hcost : s.cost prog = 1 + entryWidth := by
    rw [State.cost, hrest]
    exact if_pos (by rw [hf]; rfl)
  obtain ⟨junk, hdoes⟩ := hs.does himp
  obtain ⟨out, hout, -⟩ := hs.sound.next hin junk x.host
  have hdone := hdoes out hout
  rw [hcost] at hdone
  cases out with
  | goes t host =>
    obtain ⟨y, hy, hrep, rfl⟩ := hdone
    have ht := hs.goes hin hout hrep
    obtain ⟨-, rfl⟩ := State.next_of_call hrest hf hout
    have hsame := hv.after hy (Nat.le_refl _)
    rw [Nat.sub_self] at hsame
    exact (show y = v from hsame) ▸ ht
  | halts w host =>
    obtain ⟨cpu, hcpu⟩ := hdone
    exact absurd (hcpu.after hv).1 (Nat.lt_irrefl _)
  | fails e host =>
    obtain ⟨i, cpu, hi, hcpu⟩ := hdone
    exact absurd (hcpu.after hv).1 (Nat.not_lt.2 hi)

omit [Host σ] in
/-- **A routine reads what its caller passed**, at the place of the parameter. -/
theorem Running.reads_parameter (himp : code.Implements prog) {a : Caller} {cs : List Caller}
    {flags : Option (Int64 × Int64)} (hs : Running prog mode (entryState q a cs flags) v) {vs : List Int64}
    (hargs : a.Provides vs) (hlen : vs.length = q.arity) {i : Nat} {w : Int64} (hi : vs[i]? = some w) :
    ∃ o, arg? (parameterLocation i) = some o ∧ Act.read o v.cpu = .ok w v.cpu := by
  have hlt := (List.getElem?_eq_some_iff.1 hi).1
  have hfits := hs.located.fits himp hs.sound.depth_lt
  have harity : q.arity < 2 ^ 59 := hfits.arity
  obtain ⟨word, hword⟩ := hs.represents.mirrors.read hfits (paramSrc i)
  have hread := hargs.read (s := entryState q a cs flags) rfl hlen.symm rfl hi ⟨word, none⟩
  refine ⟨(paramSrc i).arg, ?_, hword none _ hread⟩
  rw [← text_paramSrc]
  refine arg?_src ?_
  unfold paramSrc
  split
  · exact trivial
  · exact Nat.lt_of_le_of_lt (Nat.sub_le _ _) (by omega)

end Callee

end MicroC
