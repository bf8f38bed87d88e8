import MicroC.Proofs.Compilation.Activations
import MicroC.Proofs.Emission.Visits

/-!
# The discipline of the stack

While the code of a program is emitted its frame tells how deep the stack will be there. A run finds it that
deep at the beginning of the code of every part, and at its end.

* `Part.Leads`: what the code of a part does to the frame.
* `Part.Balanced`: the same for the processor.
* `Part.Coded.walk`: the items of a part.
* `Running.balanced`: a run from the beginning to the end of a part.
* **`stack_disciplined`**: a compiled program keeps to its frames.
-/

namespace MicroC

open Convention Code Emit

/-! ## Frames -/

namespace Part

/-- A word of the frame is that of a variable that a part assigns to. -/
def Sets (a : Analysis) (f : Frame) : Part → Nat → Prop
  | .functions _ | .function _ => fun _ => True
  | .stmts _ ss => Stmt.SetsAll a.symbols f.slots ss
  | .stmt _ s | .branch _ s => s.Sets a.symbols f.slots
  | .arguments es => Expr.Sets a.symbols f.slots (Expr.subsList es)
  | .expr e => Expr.Sets a.symbols f.slots e.subs

/-- The frame behind the code of a part. Between statements the stack is aligned, and only declarations make a
difference. -/
def Leads (f f' : Frame) : Part → Prop
  | .functions _ | .function _ => True
  | .stmts .. => f.depth % 2 = 0 ∧ f'.depth % 2 = 0
  | .stmt _ s => f.depth % 2 = 0 ∧ f'.depth % 2 = 0 ∧ ((∀ b init, s ≠ .decl b init) → f' = f)
  | .branch .. => f.depth % 2 = 0 ∧ f' = f
  | .arguments es => f'.depth = f.depth + es.length
  | .expr _ => f'.depth = f.depth + 1

/-- The words of a frame that stay as they are. -/
def Keeps (a : Analysis) (f : Frame) (P : Part) (i : Nat) : Prop := i < f.depth ∧ ¬ P.Sets a f i

theorem under (a : Analysis) (f : Frame) (P : Part) : Under (P.Keeps a f) f.depth := fun _ hi => hi.1

theorem spares (a : Analysis) (f : Frame) (P : Part) : Spares (P.Keeps a f) (P.Sets a f) := fun _ hi => hi.2

end Part

section Coded

variable {a : Analysis} {arityOf : String → Option Nat} {P : Part} {l : Layout} {is : List Item} {out : Emitted Unit}

/-- **What the code of a part does to the stack.** -/
theorem Part.Coded.walk (harity : Resolves a arityOf) (h : P.Coded a arityOf l is) (hout : P.emit a l = .ok out) :
    P.Leads l.frame out.layout.frame ∧ codeLength out.lines = width is ∧
      Walk (P.Keeps a l.frame) (labels is) l.frame.depth is out.layout.frame.depth := by
  have hsub : ∀ x ∈ labels is, x ∈ labels is := fun _ hx => hx
  have hunder := P.under a l.frame
  have hspares := P.spares a l.frame
  cases h with
  | @stmts exit ss p q n n' is hp heven hc h =>
    obtain ⟨is', q', h', hframe, hq, hw⟩ := stmtsCode_of_emit harity hp hc hout
    obtain ⟨rfl, rfl, rfl⟩ := h.unique h'
    have hwalk := (h.walk hp (hp.depth ▸ hunder) hspares hsub).2.2
    have heven' := h.even heven
    rw [hp.depth] at heven hwalk
    rw [hq.depth] at heven' hwalk
    rw [hframe]
    exact ⟨⟨heven, heven'⟩, hw.codeLength, hwalk⟩
  | @stmt exit s p q n n' is hp heven hc h =>
    obtain ⟨is', q', h', hframe, hq, hw⟩ := stmtCode_of_emit harity hp hc hout
    obtain ⟨rfl, rfl, rfl⟩ := h.unique h'
    have hwalk := (h.walk hp (hp.depth ▸ hunder) hspares hsub).2.2
    have heven' := h.even heven
    rw [hp.depth] at heven hwalk
    rw [hq.depth] at heven' hwalk
    rw [hframe]
    refine ⟨⟨heven, heven', fun hs => ?_⟩, hw.codeLength, hwalk⟩
    cases h with
    | init => exact absurd rfl (hs _ _)
    | bare => exact absurd rfl (hs _ _)
    | _ => rfl
  | @branch exit s p q n n' is hp heven hc h =>
    obtain ⟨mid, hmid, hrest⟩ := @scope_eq_ok exit _ _ _ _ hp hout
    obtain ⟨is', q', h', hframe, hq, hw⟩ := stmtCode_of_emit harity hp hc hmid
    obtain ⟨rfl, rfl, rfl⟩ := h.unique h'
    obtain ⟨hl, hw'⟩ := hrest is q hw hframe hq
    have hlabels : ∀ x ∈ labels is, x ∈ labels (is ++ p.release q) := fun x hx => by
      rw [labels_append]
      exact List.mem_append_left _ hx
    have hkeep : Under _ p.words.length := hp.depth ▸ hunder
    have hbranch := h.walk hp hkeep hspares hlabels
    have hwalk := hbranch.2.2.append (Spot.walk_release hbranch.2.1 hp hq hkeep)
    rw [hp.depth] at hwalk
    rw [hp.depth] at heven
    rw [hl]
    exact ⟨⟨heven, rfl⟩, hw'.codeLength, hwalk⟩
  | @arguments es ks l n' is hlen hc h =>
    obtain ⟨is', h', hframe, hw⟩ := @argsCode_of_emit "" _ _ harity _ _ _ _ hlen hc hout
    obtain ⟨rfl, rfl⟩ := h.unique h'
    have hwalk := h.walk (hlen ▸ hunder) hspares hsub
    rw [hlen] at hwalk
    rw [hframe, Frame.depth_pushTemps]
    exact ⟨Frame.depth_pushTemps _ _, hw.codeLength, hwalk⟩
  | @expr e ks κ l n' is hlen hc h =>
    obtain ⟨is', h', hframe, hw⟩ := @exprCode_of_emit "" _ _ harity _ _ _ _ κ hlen hc hout
    obtain ⟨rfl, rfl⟩ := h.unique h'
    have hwalk := h.walk (hlen ▸ hunder) hspares hsub
    rw [hlen] at hwalk
    rw [hframe, Frame.depth_pushTemps]
    exact ⟨Frame.depth_pushTemps _ _, hw.codeLength, hwalk⟩

end Coded

theorem Part.Visits.emitted {a : Analysis} {P Q : Part} {l l' : Layout} {lines : List Line} {out : Emitted Unit}
    (h : P.Visits a l lines Q l' out) : Q.emit a l' = .ok out := by
  induction h with
  | here h => exact h
  | further _ _ _ ih => exact ih

/-! ## The processor -/

namespace Cpu

/-- There are some words between the frame pointer and the stack pointer. -/
def Deep (c : Cpu) (n : Nat) : Prop := c.get .rsp = c.get .rbp + Int64.ofInt (-(wordSize * n : Nat) : Int)

/-- The address of a word of the frame. -/
def slotAddress (c : Cpu) (i : Nat) : Nat := (c.get .rbp + Int64.ofInt (Src.slotOffset i)).toUInt64.toNat

end Cpu

/-- What the code of a part does to the processor: the stack is as deep as the frame tells, and what was on it
is still there but for the variables that the part assigns to. -/
structure Part.Balanced (a : Analysis) (P : Part) (f f' : Frame) (c d : Cpu) : Prop where
  rbp : d.get .rbp = c.get .rbp
  deep : d.Deep f'.depth
  word : ∀ address, c.rsp ≤ address → (∀ i, P.Sets a f i → address ≠ c.slotAddress i) →
    d.load address = c.load address

section Runs

variable {σ : Type} {code : Code} {prog : List Subroutine} {mode : Mode} {s : State} {x z : Point σ}

theorem Mirrors.deep {c : Cpu} (h : Mirrors prog s c) (hs : s.callers ≠ []) : c.Deep s.words.length := by
  rw [Cpu.Deep, h.rbp_eq hs, addr_sub, h.holds.rsp, Mirrors.length_stack, State.depth, Nat.add_comm]

variable [Host σ] {a : Analysis} {arityOf : String → Option Nat} {P : Part} {l : Layout} {lines : List Line}
  {r : Subroutine} {front inner back : List Item} {out : Emitted Unit}

/-- **A run from the beginning to the end of a part** in the same activation. -/
theorem Running.balanced (himp : code.Implements prog) (hin : InOrder prog mode) (hs : Running prog mode s x)
    (harity : Resolves a arityOf) (hP : P.Placed a arityOf prog lines l r front inner back)
    (hout : P.emit a l = .ok out) (hpc : x.pc = codeLength lines) (hlen : s.words.length = l.frame.depth)
    (hz : code.Traverses (codeLength (lines ++ out.lines)) x z) :
    P.Balanced a l.frame out.layout.frame x.cpu z.cpu := by
  obtain ⟨-, hwidth, hwalk⟩ := hP.coded.walk harity hout
  have hplace := hP.pc
  have hstop := hP.pc_behind hwidth
  -- The words that the state does not know are in memory all the same.
  have hfill := hs.fill
  rw [hplace] at hpc
  rw [hstop] at hz
  obtain ⟨t, ht, hcallers, htlen, hkept⟩ := hfill.crosses himp hin hP.routine hP.body hP.back hwalk (fun _ hi => hi.1)
    hpc ((length_fill _ _).trans hlen) hz
  have hm := hfill.represents.mirrors
  have hm' := ht.represents.mirrors
  have hfits := hfill.located.fits himp hfill.sound.depth_lt
  refine ⟨?_, htlen ▸ hm'.deep (hcallers ▸ hfits.called), fun address ha hne => ?_⟩
  · rw [hm'.rbp, hm.rbp, hcallers]
  · unfold Cpu.load
    cases hslot : slot? address with
    | none => rfl
    | some i =>
      have hlt : i.1 < s.depth := by
        refine lt_of_slot? (Nat.lt_of_succ_lt hs.sound.depth_lt) ?_ hslot
        rw [Cpu.rsp, hs.represents.mirrors.holds.rsp, Mirrors.length_stack] at ha
        exact ha
      have hword := hs.under_fill hlt i.2
      have hsame : under (t.words ++ context prog t.callers) i.1 = some (some (x.cpu.stack.get i)) := by
        rw [← hword, under_append, under_append, hcallers]
        split
        · rfl
        · next hcontext =>
          rw [length_context] at hcontext ⊢
          refine hkept _ ⟨?_, fun hset => hne _ hset ?_⟩
          · rw [State.depth, hlen] at hlt
            rw [State.fill, contextDepth_fill] at hcontext ⊢
            omega
          · rw [Cpu.slotAddress, hm.slot_address hfits.called, Nat.add_sub_cancel' (Nat.le_of_not_lt hcontext)]
            exact address_of_slot? hslot
      obtain ⟨_, hstack⟩ := hm'.holds.word i.1 _ hsame
      exact congrArg Except.ok hstack

end Runs

/-! ## Compiled programs -/

section Compiled

variable {σ : Type} [Host σ] {source : String} {p : Program} {a : Analysis} {m : Module}

/-- **A compiled program keeps to its frames.** In every run from a function of a compiled module that has not
been reduced, the stack is as deep as the frame tells whenever control is at the beginning of the code of a
part of a function, and if it gets to the end of that code in the same activation then the stack is as deep as
the frame behind the part tells, and holds what it held before but for the variables that the part assigns to. -/
theorem stack_disciplined (h : Compiled source p a m) (hlen : source.length < 2 ^ 55) {f : Func}
    (hf : f ∈ p.functions) (stack : Stack) (host : σ) :
    ∃ code pc cpu, Code.ofModule m = .ok code ∧ code.labels.get? f.name.name = some pc ∧
      Machine.entered stack = (.ok (), cpu) ∧
      ∀ lines P l out, Part.Visits a (.functions p.functions) {} lines P l out → ¬ P.Outer →
        P.Leads l.frame out.layout.frame ∧
          ∀ n x, code.Runs n ⟨pc, cpu, host⟩ x → x.pc = codeLength lines → x.cpu.Deep l.frame.depth ∧
            ∀ z, code.Traverses (codeLength (lines ++ out.lines)) x z →
              P.Balanced a l.frame out.layout.frame x.cpu z.cpu := by
  have hmode : p.Allows ⟨false, false, false⟩ := ⟨nofun, nofun⟩
  obtain ⟨prog, k, code, hcode, hbuilt, -⟩ := h.builds hmode (h.instructionCount_lt hlen)
  obtain ⟨hdeclared, hcalled⟩ := h.called
  have harity := resolves_of_declared hdeclared
  obtain ⟨r, hr, hname, -⟩ := hcode.exists_routine hf
  obtain ⟨cpu, hcpu, -⟩ := entering_outermost prog stack
  rw [← hname]
  refine ⟨code, _, cpu, hbuilt.made, hbuilt.implements.labels r hr, hcpu, fun lines P l out hv houter => ?_⟩
  obtain ⟨q, front, inner, back, hP⟩ :=
    (hv.placed harity hcode hcalled hbuilt.implements.names).resolve_left houter
  refine ⟨(hP.coded.walk harity hv.emitted).1, fun n x hx hpc => ?_⟩
  have hsuffix : inner ++ back <:+ q.body := ⟨front, hP.body.symm⟩
  rcases between_or_running hbuilt.implements hbuilt.inOrder hr nofun hcpu hx with hbetween | ⟨s, k, y, htracks⟩
  · rw [hpc, hP.pc] at hbetween
    exact absurd hbetween (not_between hbuilt.implements.names hP.routine hsuffix)
  · have hs := htracks.last
    have hlevel := htracks.level hbuilt.inOrder hcode.leveled (level_outermost r)
    have hdepth : s.words.length = l.frame.depth := by
      refine hs.length_at hbuilt.implements hlevel hP.routine hsuffix ?_ (hpc.trans hP.pc) ⟨front, hP.body, hP.level⟩
      rw [width_append]
      exact Nat.lt_of_lt_of_le hP.back (Nat.le_add_left _ _)
    refine ⟨?_, fun z hz => hs.balanced hbuilt.implements hbuilt.inOrder harity hP hv.emitted hpc hdepth hz⟩
    exact hdepth ▸ hs.represents.mirrors.deep (hs.located.fits hbuilt.implements hs.sound.depth_lt).called

theorem visits_sampleLoop : ∃ lines l out, Part.Visits sampleAnalysis (.functions sampleProgram.functions) {} lines
    (.stmt (exitLabel "sum") sampleLoop) l out ∧ l.frame.depth = 8 ∧ codeLength lines = 18 ∧
      codeLength (lines ++ out.lines) = 49 := by
  refine ⟨_, _, _, .further .function rfl (.further .body (eq_ok_get ?_) (.further .tail (eq_ok_get ?_)
    (.further .head rfl (.here (eq_ok_get ?_))))), ?_, ?_, ?_⟩
  all_goals decide +kernel

/-- The variable that the loop adds to is the last one of the frame, from one to seven. -/
theorem run_sampleLoop : ((sampleCode.first? (·.pc = 18) 50 sampleStart).bind fun x =>
    (sampleCode.traverse? 49 110 x).map fun z => (x.cpu.load x.cpu.rsp, z.cpu.load z.cpu.rsp)) =
      some (.ok 1, .ok 7) := by
  decide +kernel

theorem stack_disciplined_sample : ∃ code pc cpu lines l out n x z, Code.ofModule sampleModule = .ok code ∧
    code.labels.get? Compilation.entryPoint = some pc ∧ Machine.entered (.replicate stackWords 0) = (.ok (), cpu) ∧
      Part.Visits sampleAnalysis (.functions sampleProgram.functions) {} lines
        (.stmt (exitLabel "sum") sampleLoop) l out ∧
        code.Runs n ⟨pc, cpu, (⟨[], ""⟩ : Script)⟩ x ∧ code.Traverses (codeLength (lines ++ out.lines)) x z ∧
          x.cpu.load x.cpu.rsp = .ok 1 ∧ z.cpu.load z.cpu.rsp = .ok 7 ∧ x.cpu.Deep 8 ∧
            Part.Balanced sampleAnalysis (.stmt (exitLabel "sum") sampleLoop) l.frame out.layout.frame x.cpu z.cpu := by
  have hmain : sampleMain ∈ sampleProgram.functions := List.mem_cons_of_mem _ List.mem_cons_self
  obtain ⟨code, pc, cpu, hcode, hpc, hcpu, hparts⟩ := stack_disciplined compiled_sample
    (Nat.lt_trans length_sample (by decide)) hmain (.replicate stackWords 0) (⟨[], ""⟩ : Script)
  obtain rfl := Except.ok.inj (code_sample.symm.trans hcode)
  obtain ⟨lines, l, out, hv, hdepth, hplace, hend⟩ := visits_sampleLoop
  obtain ⟨x, hx, hz⟩ := Option.bind_eq_some_iff.1 run_sampleLoop
  obtain ⟨z, hz, hwords⟩ := Option.map_eq_some_iff.1 hz
  obtain ⟨hbefore, hbehind⟩ := Prod.mk.inj hwords
  obtain ⟨hx, n, hn, -⟩ := Code.first?_eq_some hx
  rw [← eq_sampleStart hpc hcpu] at hn
  have htraverses := Code.traverses_of_traverse? hz
  rw [← hend] at htraverses
  obtain ⟨-, hruns⟩ := hparts lines _ l out hv nofun
  obtain ⟨hdeep, hbalanced⟩ := hruns n x hn ((of_decide_eq_true hx).trans hplace.symm)
  exact ⟨_, pc, cpu, lines, l, out, n, x, z, hcode, hpc, hcpu, hv, hn, htraverses, hbefore, hbehind, hdepth ▸ hdeep,
    hbalanced z htraverses⟩

end Compiled

end MicroC
