import MicroC.Proofs.Compilation.Discipline
import MicroC.Proofs.Emission.Passing

/-!
# How calls pass their arguments

Three pieces of code say where the arguments of a call are: the code of the call, which computes them from the last
to the first and pops some of them, the runtime, which looks for them from the stack pointer upwards, and a
function, which looks for them above the registers that it has saved. They agree, whatever the arguments are and
however many.

* `Emit.callArguments`, `Emit.callFront`: what is emitted for a call in front of the instruction that makes it.
* `CallSite`: where the code of a call stands.
* `Code.Passes`: the value that was computed is the one that is found.
* **`Running.passes_arguments`**: a run through a call.
* **`arguments_passed`**: every call of a compiled program passes its arguments.
-/

namespace MicroC

open Convention Code Emit

/-! ## Emission -/

/-- What is emitted for a call with a number of arguments, up to some of the last of them. -/
def Emit.callArguments (a : Analysis) (arity : Nat) (es : List Expr) : Emit Unit := do
  callPad arity
  Emit.arguments a es

/-- What is emitted for a call in front of the instruction that makes it. -/
def Emit.callFront (a : Analysis) (args : List Expr) : Emit Unit := do
  callArguments a args.length args
  popArguments (argumentRegisters.take args.length)

section Emission

variable {a : Analysis} {arityOf : String → Option Nat} {l : Layout} {args es fs : List Expr} {e : Expr} {st : Site}
  {g : Ident} {out mid : Emitted Unit} {n : Nat}

/-- The emission of a call begins with the alignment of the stack. -/
theorem callPad_of_call {name : String} {x : Emit Unit} (h : Emit.call name n x l = .ok out) :
    ∃ pad mid tail, callPad n l = .ok pad ∧
      (do x; popArguments (argumentRegisters.take n)) pad.layout = .ok mid ∧
        out.lines = pad.lines ++ mid.lines ++ tail := by
  obtain ⟨f, b, hf, hb, rfl⟩ := Emit.bind_eq_ok.1 h
  cases hf
  dsimp only at hb
  split at hb
  · next hodd =>
    obtain ⟨grown, c, hgrown, hc, rfl⟩ := Emit.bind_eq_ok.1 hb
    obtain ⟨pushed, d, hpushed, hd, rfl⟩ := Emit.bind_eq_ok.1 hc
    obtain ⟨values, e, hvalues, he, rfl⟩ := Emit.bind_eq_ok.1 hd
    obtain ⟨pops, k, hpops, hk, rfl⟩ := Emit.bind_eq_ok.1 he
    have hpad : callPad n l = .ok ⟨(), grown.lines ++ pushed.lines, pushed.layout⟩ := by
      refine Emit.bind_eq_ok.2 ⟨_, ⟨(), grown.lines ++ pushed.lines, pushed.layout⟩, rfl, ?_, rfl⟩
      rw [if_pos hodd]
      exact Emit.bind_eq_ok.2 ⟨grown, pushed, hgrown, hpushed, rfl⟩
    refine ⟨_, _, k.lines, hpad, Emit.bind_eq_ok.2 ⟨values, pops, hvalues, hpops, rfl⟩, ?_⟩
    simp
  · next heven =>
    obtain ⟨values, e, hvalues, he, rfl⟩ := Emit.bind_eq_ok.1 hb
    obtain ⟨pops, k, hpops, hk, rfl⟩ := Emit.bind_eq_ok.1 he
    have hpad : callPad n l = .ok ⟨(), [], l⟩ := by
      refine Emit.bind_eq_ok.2 ⟨_, ⟨(), [], l⟩, rfl, ?_, rfl⟩
      rw [if_neg heven]
      rfl
    refine ⟨_, _, k.lines, hpad, Emit.bind_eq_ok.2 ⟨values, pops, hvalues, hpops, rfl⟩, ?_⟩
    simp

theorem callFront_of_call (h : Emit.expr a (.call st g args) l = .ok out) :
    ∃ mid, callFront a args l = .ok mid ∧ mid.lines <+: out.lines := by
  have hcode := emit_of_expectValue h
  by_cases hin : a.functions.contains g.name = true
  · rw [if_pos hin] at hcode
    obtain ⟨pad, mid, tail, hpad, hmid, hlines⟩ := callPad_of_call hcode
    obtain ⟨values, pops, hvalues, hpops, rfl⟩ := Emit.bind_eq_ok.1 hmid
    refine ⟨_, Emit.bind_eq_ok.2 ⟨_, _, Emit.bind_eq_ok.2 ⟨pad, values, hpad, hvalues, rfl⟩, hpops, rfl⟩, tail, ?_⟩
    rw [hlines]
    simp
  · rw [if_neg hin] at hcode
    exact absurd hcode Emit.fail_ne_ok

theorem callFront_eq_ok (h : callFront a args l = .ok out) :
    ∃ mid, callArguments a args.length args l = .ok mid ∧ mid.lines <+: out.lines ∧
      codeLength out.lines = codeLength mid.lines + width (popItems (Reg.arguments.take args.length)) := by
  obtain ⟨mid, pops, hmid, hpops, rfl⟩ := Emit.bind_eq_ok.1 h
  have hemits := @emits_popArguments "" (Reg.arguments.take args.length) mid.layout
  rw [List.map_take, Reg.map_name_arguments] at hemits
  refine ⟨mid, hmid, List.prefix_append _ _, ?_⟩
  rw [codeLength_append, (hemits.eq hpops).2.codeLength]

theorem callArguments_eq_ok (h : callArguments a n es l = .ok out) :
    ∃ mid, Emit.arguments a es (l.push (callPadding l.frame.depth n)) = .ok mid ∧ mid.layout = out.layout ∧
      codeLength out.lines = width (growItems (callPadding l.frame.depth n)) + codeLength mid.lines := by
  obtain ⟨pad, mid, hpad, hmid, rfl⟩ := Emit.bind_eq_ok.1 h
  obtain ⟨hlayout, hw⟩ := (@emits_callPad "" l n).eq hpad
  rw [hlayout] at hmid
  refine ⟨mid, hmid, rfl, ?_⟩
  rw [codeLength_append, hw.codeLength]

theorem arguments_of_append (h : Emit.arguments a (es ++ e :: fs) l = .ok out) :
    ∃ before here, Emit.arguments a fs l = .ok before ∧ Emit.expr a e before.layout = .ok here ∧
      before.lines ++ here.lines <+: out.lines := by
  induction es generalizing out with
  | nil =>
    obtain ⟨before, here, hbefore, hhere, rfl⟩ := Emit.bind_eq_ok.1 h
    exact ⟨before, here, hbefore, hhere, List.prefix_refl _⟩
  | cons e' es ih =>
    obtain ⟨mid, last, hmid, -, rfl⟩ := Emit.bind_eq_ok.1 h
    obtain ⟨before, here, hbefore, hhere, hprefix⟩ := ih hmid
    exact ⟨before, here, hbefore, hhere, hprefix.trans (List.prefix_append _ _)⟩

theorem callArguments_of_append (h : callArguments a n (es ++ e :: fs) l = .ok out) :
    ∃ before here, callArguments a n fs l = .ok before ∧ Emit.expr a e before.layout = .ok here ∧
      before.lines ++ here.lines <+: out.lines := by
  obtain ⟨pad, mid, hpad, hmid, rfl⟩ := Emit.bind_eq_ok.1 h
  obtain ⟨before, here, hbefore, hhere, hprefix⟩ := arguments_of_append hmid
  refine ⟨_, here, Emit.bind_eq_ok.2 ⟨pad, before, hpad, hbefore, rfl⟩, hhere, ?_⟩
  rw [List.append_assoc]
  exact (List.prefix_append_right_inj _).2 hprefix

theorem calledAll_of_append (h : Expr.CalledAll a.functions a.types (es ++ e :: fs)) :
    e.Called a.functions a.types ∧ Expr.CalledAll a.functions a.types fs := by
  induction es with
  | nil => exact h
  | cons e' es ih => exact ih h.2

end Emission

/-! ## Where calls stand -/

/-- Where the code of a call stands in a routine. -/
structure CallSite (a : Analysis) (arityOf : String → Option Nat) (prog : List Subroutine) (lines : List Line)
    (l : Layout) (g : Ident) (args : List Expr) (r : Subroutine) (ks : List Kind) (front is k : List Item) : Prop where
  routine : r ∈ prog
  body : r.body = front ++ (growItems (callPadding l.frame.depth args.length) ++ (is ++
    (popItems (Reg.arguments.take args.length) ++ .op (.call g.name) :: k)))
  place : codeLength lines = start prog r.name + (entryWidth + width front)
  depth : ks.length = l.frame.depth
  arguments : ∃ n, ArgsCode ⟨a.symbols, arityOf⟩ l.frame.slots
    (List.replicate (callPadding l.frame.depth args.length) .pad ++ ks) l.labels args is n
  arity : arityOf g.name = some args.length
  called : Expr.CalledAll a.functions a.types args

section Sites

variable {a : Analysis} {arityOf : String → Option Nat} {prog : List Subroutine} {lines : List Line} {l : Layout}
  {st : Site} {g : Ident} {args es fs : List Expr} {e : Expr} {r : Subroutine} {ks : List Kind}
  {front inner back is k : List Item} {out : Emitted Unit}

theorem Part.Placed.callSite (hP : Part.Placed a arityOf prog lines l (.expr (.call st g args)) r front inner back) :
    ∃ ks is k, CallSite a arityOf prog lines l g args r ks front is k := by
  have hcoded := hP.coded
  have hbody := hP.body
  cases hcoded with
  | @expr _ ks κ _ n _ hlen hc hcode =>
    cases hcode with
    | @call _ _ _ p _ _ _ _ is hf hp hargs =>
      rw [hlen] at hp
      subst hp
      refine ⟨ks, is, shrinkItems (stackArguments args.length + callPadding l.frame.depth args.length) ++
        [.op (.push (.reg .rax) κ)] ++ back, hP.routine, ?_, hP.place, hlen, ⟨n, hargs⟩, hf, hc.2⟩
      rw [hbody, callItems]
      simp

namespace CallSite

theorem pc (h : CallSite a arityOf prog lines l g args r ks front is k) :
    codeLength lines = pcOf prog r (growItems (callPadding l.frame.depth args.length) ++ (is ++
      (popItems (Reg.arguments.take args.length) ++ .op (.call g.name) :: k))) := by
  rw [h.place, pcOf, h.body, width_append front]
  omega

theorem pc_append (h : CallSite a arityOf prog lines l g args r ks front is k) {more : List Line} {j i : List Item}
    (hj : growItems (callPadding l.frame.depth args.length) ++ (is ++
      (popItems (Reg.arguments.take args.length) ++ .op (.call g.name) :: k)) = j ++ i)
    (hmore : codeLength more = width j) : codeLength (lines ++ more) = pcOf prog r i := by
  rw [codeLength_append, hmore, h.place, pcOf, h.body, hj, width_append front, width_append j]
  omega

theorem suffix (h : CallSite a arityOf prog lines l g args r ks front is k) : .op (.call g.name) :: k <:+ r.body :=
  ⟨front ++ (growItems (callPadding l.frame.depth args.length) ++ (is ++ popItems (Reg.arguments.take args.length))),
    by rw [h.body]; simp⟩

theorem slots_le (h : CallSite a arityOf prog lines l g args r ks front is k) : l.frame.slots.length ≤ ks.length := by
  rw [h.depth, Frame.depth]
  omega

theorem length_kinds (h : CallSite a arityOf prog lines l g args r ks front is k) :
    (List.replicate (callPadding l.frame.depth args.length) Kind.pad ++ ks).length =
      (l.push (callPadding l.frame.depth args.length)).frame.depth := by
  rw [Frame.depth_pushTemps, List.length_append, List.length_replicate, h.depth, Nat.add_comm]

theorem pc_front (harity : Resolves a arityOf) (h : CallSite a arityOf prog lines l g args r ks front is k)
    {mid : Emitted Unit} (hmid : callFront a args l = .ok mid) :
    codeLength (lines ++ mid.lines) = pcOf prog r (.op (.call g.name) :: k) := by
  obtain ⟨n, hargs⟩ := h.arguments
  obtain ⟨values, hvalues, -, hlen⟩ := callFront_eq_ok hmid
  obtain ⟨out, hout, -, hlen'⟩ := callArguments_eq_ok hvalues
  obtain ⟨is', hargs', -, hw⟩ := @argsCode_of_emit "" _ _ harity _ _ _ _ h.length_kinds h.called hout
  obtain ⟨rfl, -⟩ := hargs.unique hargs'
  refine h.pc_append (j := growItems (callPadding l.frame.depth args.length) ++ (is ++
    popItems (Reg.arguments.take args.length))) (by simp) ?_
  rw [hlen, hlen', hw.codeLength, width_append, width_append, Nat.add_assoc]

theorem pc_argument (harity : Resolves a arityOf) {is₁ is₂ is₃ : List Item} {n₁ n₂ : Nat}
    (h : CallSite a arityOf prog lines l g (es ++ e :: fs) r ks front (is₁ ++ (is₂ ++ is₃)) k)
    (hfs : ArgsCode ⟨a.symbols, arityOf⟩ l.frame.slots
      (List.replicate (callPadding l.frame.depth (es ++ e :: fs).length) .pad ++ ks) l.labels fs is₁ n₁)
    (he : ExprCode ⟨a.symbols, arityOf⟩ l.frame.slots (List.replicate fs.length .temp ++
      (List.replicate (callPadding l.frame.depth (es ++ e :: fs).length) .pad ++ ks)) n₁ .temp e is₂ n₂)
    {before here : Emitted Unit} (hbefore : callArguments a (es ++ e :: fs).length fs l = .ok before)
    (hhere : Emit.expr a e before.layout = .ok here) :
    codeLength (lines ++ (before.lines ++ here.lines)) =
      pcOf prog r (is₃ ++ (popItems (Reg.arguments.take (es ++ e :: fs).length) ++ .op (.call g.name) :: k)) := by
  obtain ⟨hcalled, hcalled'⟩ := calledAll_of_append h.called
  obtain ⟨behind, hbehind, hlayout, hlen⟩ := callArguments_eq_ok hbefore
  rw [← hlayout] at hhere
  obtain ⟨js, hfs', hframe, hw⟩ := @argsCode_of_emit "" _ _ harity _ _ _ _ h.length_kinds hcalled' hbehind
  obtain ⟨rfl, rfl⟩ := hfs.unique hfs'
  have hdepth : (List.replicate fs.length Kind.temp ++ (List.replicate (callPadding l.frame.depth
      (es ++ e :: fs).length) Kind.pad ++ ks)).length = behind.layout.frame.depth := by
    rw [hframe, Frame.depth_pushTemps, List.length_append, List.length_replicate, h.length_kinds, Nat.add_comm]
  obtain ⟨js', he', -, hw'⟩ := @exprCode_of_emit "" _ _ harity _ _ _ _ .temp hdepth hcalled hhere
  have hslots : behind.layout.frame.slots = l.frame.slots := by
    rw [hframe]
    rfl
  obtain ⟨rfl, -⟩ := he.unique (hslots ▸ he')
  refine h.pc_append (j := growItems (callPadding l.frame.depth (es ++ e :: fs).length) ++ (is₁ ++ is₂)) (by simp) ?_
  rw [codeLength_append, hlen, hw.codeLength, hw'.codeLength, width_append, width_append, Nat.add_assoc]

/-- The instruction that makes the call: of a routine, by its name, or of the runtime. -/
theorem cell {code : Code} (himp : code.Implements prog) (h : CallSite a arityOf prog lines l g args r ks front is k) :
    (prog.find? (·.name == g.name) = none ∧
      code.cells[pcOf prog r (.op (.call g.name) :: k)]? = some (.call [.symbol g.name])) ∨
    ∃ q ∈ prog, q.name = g.name ∧ prog.find? (·.name == g.name) = some q ∧
      code.cells[pcOf prog r (.op (.call g.name) :: k)]? = some (.call [.label g.name (start prog q.name)]) := by
  have hcell := himp.cell_of_op h.routine h.suffix
  cases hfind : prog.find? (·.name == g.name) with
  | none => exact .inl ⟨rfl, by rw [hcell]; simp [Op.cell, hfind]⟩
  | some q =>
    obtain ⟨hq, hname⟩ := find?_mem hfind
    exact .inr ⟨q, hq, hname, rfl, by rw [hcell, hname]; simp [Op.cell, hfind]⟩

end CallSite

end Sites

/-! ## Runs -/

/-- The value of an argument of a call is where it is looked for. Control has come from `x`, where the code of the
call begins, to `z`, at the instruction that makes it, behind some more lines. -/
structure Code.Passes {σ : Type} [Host σ] (code : Code) (a : Analysis) (lines : List Line) (l : Layout)
    (more : List Line) (g : Ident) (args : List Expr) (x z : Point σ) (i : Nat) (w : Int64) : Prop where
  /-- It was on top of the stack behind the code of the argument. -/
  computed : ∃ e before here y, args[i]? = some e ∧ callArguments a args.length (args.drop (i + 1)) l = .ok before ∧
    Emit.expr a e before.layout = .ok here ∧ before.lines ++ here.lines <+: more ∧
      code.Traverses (codeLength (lines ++ (before.lines ++ here.lines))) x y ∧ code.Traverses z.pc y z ∧
        y.cpu.load y.cpu.rsp = .ok w
  /-- The runtime finds it. -/
  runtime : Act.argument i z.cpu = .ok w z.cpu
  /-- A function finds it once it has set up its frame. -/
  function : ∀ address v, code.cells[z.pc]? = some (.call [.label g.name address]) →
    code.Runs (1 + entryWidth) z v → ∃ o, arg? (parameterLocation i) = some o ∧ Act.read o v.cpu = .ok w v.cpu

section Runs

variable {σ : Type} [Host σ] {code : Code} {prog : List Subroutine} {mode : Mode} {s : State} {x z : Point σ}
  {a : Analysis} {lines : List Line} {l : Layout} {g : Ident} {args : List Expr} {r : Subroutine} {ks : List Kind}
  {front is k : List Item} {mid : Emitted Unit}

theorem Running.passes_at (himp : code.Implements prog) (hin : InOrder prog mode) (harity : Resolves a (arityOf prog))
    (hs : Running prog mode s x) (h : CallSite a (arityOf prog) prog lines l g args r ks front is k)
    (hmid : callFront a args l = .ok mid) (hpc : x.pc = codeLength lines) (hlen : s.words.length = l.frame.depth)
    (hz : code.Traverses (codeLength (lines ++ mid.lines)) x z) {i : Nat} (hi : i < args.length) :
    ∃ w, code.Passes a lines l mid.lines g args x z i w := by
  obtain ⟨e, es, fs, rfl, rfl⟩ : ∃ e es fs, args = es ++ e :: fs ∧ es.length = i :=
    ⟨args[i], args.take i, args.drop (i + 1), by simp, by simp; omega⟩
  have hcell := h.cell himp
  rw [h.pc_front harity hmid] at hz
  rw [h.pc] at hpc
  obtain ⟨n, hargs⟩ := h.arguments
  obtain ⟨is₁, is₂, is₃, n₁, n₂, y, t, vs, w, rfl, hfs, he, hxy, hyz, hload, ht, hrest, hvs, hw⟩ :=
    hs.passes_argument himp hin h.routine hargs h.arity h.slots_le h.body (hlen.trans h.depth.symm) hpc hz
  obtain ⟨values, hvalues, hprefix, -⟩ := callFront_eq_ok hmid
  obtain ⟨before, here, hbefore, hhere, hprefix'⟩ := callArguments_of_append hvalues
  rw [← h.pc_argument harity hfs he hbefore hhere] at hxy
  have hdrop : (es ++ e :: fs).drop (es.length + 1) = fs := by
    rw [← List.drop_drop, List.drop_left]
    rfl
  refine ⟨w, ⟨e, before, here, y, by simp, hdrop.symm ▸ hbefore, hhere, hprefix'.trans hprefix, hxy,
    hz.stops ▸ hyz, hload⟩, Represents.argument_eq ht.represents.mirrors hvs hw, fun address v hlabel hv => ?_⟩
  rw [hz.stops] at hlabel
  rcases hcell with ⟨-, hsymbol⟩ | ⟨q, -, -, hfind, -⟩
  · rw [hsymbol] at hlabel
    cases hlabel
  · have hq : q.arity = (es ++ e :: fs).length := by
      have harity' := h.arity
      rw [arityOf, hfind] at harity'
      exact Option.some.inj harity'
    have hlen' := length_arguments hvs
    have hprovides : Caller.Provides ⟨some (t.routine, k), t.regs, t.words⟩ vs := by
      rw [Caller.Provides, hlen']
      exact hvs
    exact (ht.calls himp hin hrest hfind hv).reads_parameter himp hprovides (hlen'.trans hq.symm) hw

/-- **A call passes its arguments**, from where they were computed to where the callee looks for them. -/
theorem Running.passes_arguments (himp : code.Implements prog) (hin : InOrder prog mode)
    (harity : Resolves a (arityOf prog)) (hs : Running prog mode s x)
    (h : CallSite a (arityOf prog) prog lines l g args r ks front is k) (hmid : callFront a args l = .ok mid)
    (hpc : x.pc = codeLength lines) (hlen : s.words.length = l.frame.depth)
    (hz : code.Traverses (codeLength (lines ++ mid.lines)) x z) :
    ∃ ws, ws.length = args.length ∧ Act.argumentsFrom 0 args.length z.cpu = .ok ws z.cpu ∧
      ∀ i w, ws[i]? = some w → code.Passes a lines l mid.lines g args x z i w := by
  choose w hw using fun i : Fin args.length => hs.passes_at himp hin harity h hmid hpc hlen hz i.isLt
  have hpasses : ∀ i v, (List.ofFn w)[i]? = some v → code.Passes a lines l mid.lines g args x z i v := by
    intro i v hv
    rw [List.getElem?_ofFn] at hv
    split at hv
    · next hi =>
      cases hv
      exact hw ⟨i, hi⟩
    · cases hv
  refine ⟨List.ofFn w, List.length_ofFn, ?_, hpasses⟩
  exact Represents.argumentsFrom_of_argument (fun i v hv => (hpasses i v hv).runtime) args.length 0
    ((Nat.zero_add _).trans List.length_ofFn.symm)

/-- Behind the code of an expression there is one more word on the stack. -/
theorem Part.Balanced.rsp {P : Part} {f f' : Frame} {c d : Cpu} (h : P.Balanced a f f' c d) (hc : c.Deep f.depth)
    (hf : f'.depth = f.depth + 1) : d.get .rsp = c.get .rsp - Int64.ofNat wordSize := by
  have hd := h.deep
  rw [Cpu.Deep, h.rbp, hf] at hd
  rw [Cpu.Deep] at hc
  have hsum : (-(wordSize * (f.depth + 1) : Nat) : Int) = -(wordSize * f.depth : Nat) + -(wordSize : Nat) := by
    simp only [wordSize]
    omega
  have hword : Int64.ofInt (-(wordSize : Nat)) = -Int64.ofNat wordSize := rfl
  rw [hd, hc, hsum, Int64.ofInt_add, hword, ← Int64.add_assoc, Int64.sub_eq_add_neg]

end Runs

/-! ## Compiled programs -/

/-- A call stands at a place: of a function of the code, which begins by setting up its frame, or of the runtime. -/
def Code.CallsAt (code : Code) (pc : Nat) (name : String) : Prop :=
  code.cells[pc]? = some (.call [.symbol name]) ∨
    ∃ address, code.labels.get? name = some address ∧ code.Has address entryCells ∧
      code.cells[pc]? = some (.call [.label name address])

section Compiled

variable {σ : Type} [Host σ] {source : String} {p : Program} {a : Analysis} {m : Module}

/-- A run that is at the beginning of the code of a part is in a state with as many words as the frame tells. -/
theorem Compiled.running_at (h : Compiled source p a m) (hlen : source.length < 2 ^ 55) {f : Func}
    (hf : f ∈ p.functions) (stack : Stack) (host : σ) :
    ∃ prog mode code pc cpu, Code.ofModule m = .ok code ∧ code.labels.get? f.name.name = some pc ∧
      Machine.entered stack = (.ok (), cpu) ∧ code.Implements prog ∧ InOrder prog mode ∧
      Resolves a (arityOf prog) ∧
      ∀ lines P l out, Part.Visits a (.functions p.functions) {} lines P l out → ¬ P.Outer →
        ∃ r front inner back, P.Placed a (arityOf prog) prog lines l r front inner back ∧
          ∀ n x, code.Runs n ⟨pc, cpu, host⟩ x → x.pc = codeLength lines →
            ∃ s, Running prog mode s x ∧ s.words.length = l.frame.depth := by
  have hmode : p.Allows ⟨false, false, false⟩ := ⟨nofun, nofun⟩
  obtain ⟨prog, k, code, hcode, hbuilt, -⟩ := h.builds hmode (h.instructionCount_lt hlen)
  obtain ⟨hdeclared, hcalled⟩ := h.called
  have harity := resolves_of_declared hdeclared
  obtain ⟨r, hr, hname, -⟩ := hcode.exists_routine hf
  obtain ⟨cpu, hcpu, -⟩ := entering_outermost prog stack
  rw [← hname]
  refine ⟨prog, _, code, _, cpu, hbuilt.made, hbuilt.implements.labels r hr, hcpu, hbuilt.implements, hbuilt.inOrder,
    hcode.arityOf.symm ▸ harity, fun lines P l out hv houter => ?_⟩
  obtain ⟨q, front, inner, back, hP⟩ :=
    (hv.placed harity hcode hcalled hbuilt.implements.names).resolve_left houter
  refine ⟨q, front, inner, back, hcode.arityOf.symm ▸ hP, fun n x hx hpc => ?_⟩
  have hsuffix : inner ++ back <:+ q.body := ⟨front, hP.body.symm⟩
  rcases between_or_running hbuilt.implements hbuilt.inOrder hr nofun hcpu hx with hbetween | ⟨s, k, y, htracks⟩
  · rw [hpc, hP.pc] at hbetween
    exact absurd hbetween (not_between hbuilt.implements.names hP.routine hsuffix)
  · have hlevel := htracks.level hbuilt.inOrder hcode.leveled (level_outermost r)
    refine ⟨s, htracks.last, htracks.last.length_at hbuilt.implements hlevel hP.routine hsuffix ?_
      (hpc.trans hP.pc) ⟨front, hP.body, hP.level⟩⟩
    rw [width_append]
    exact Nat.lt_of_lt_of_le hP.back (Nat.le_add_left _ _)

/-- **Calls pass their arguments.** In every run from a function of a compiled module that has not been reduced,
each argument of a call is computed to the value that the runtime finds for it at the instruction that makes the
call, and that a function of the module finds where it looks for the parameter once it has set up its frame. If
control gets to the end of the call in the same activation then there is one more word on the stack. -/
theorem arguments_passed (h : Compiled source p a m) (hlen : source.length < 2 ^ 55) {f : Func}
    (hf : f ∈ p.functions) (stack : Stack) (host : σ) :
    ∃ code pc cpu, Code.ofModule m = .ok code ∧ code.labels.get? f.name.name = some pc ∧
      Machine.entered stack = (.ok (), cpu) ∧
      ∀ lines st g args l out, Part.Visits a (.functions p.functions) {} lines (.expr (.call st g args)) l out →
        ∃ mid, callFront a args l = .ok mid ∧ mid.lines <+: out.lines ∧
          code.CallsAt (codeLength (lines ++ mid.lines)) g.name ∧
          ∀ n x, code.Runs n ⟨pc, cpu, host⟩ x → x.pc = codeLength lines →
            (∀ z, code.Traverses (codeLength (lines ++ mid.lines)) x z →
              ∃ ws, ws.length = args.length ∧ Act.argumentsFrom 0 args.length z.cpu = .ok ws z.cpu ∧
                ∀ i w, ws[i]? = some w → code.Passes a lines l mid.lines g args x z i w) ∧
            ∀ z, code.Traverses (codeLength (lines ++ out.lines)) x z →
              z.cpu.get .rsp = x.cpu.get .rsp - Int64.ofNat wordSize := by
  obtain ⟨prog, mode, code, pc, cpu, hmade, hlabel, hcpu, himp, hin, harity, hparts⟩ := h.running_at hlen hf stack host
  refine ⟨code, pc, cpu, hmade, hlabel, hcpu, fun lines st g args l out hv => ?_⟩
  obtain ⟨r, front, inner, back, hP, hruns⟩ := hparts lines _ l out hv nofun
  obtain ⟨ks, is, k, hcall⟩ := hP.callSite
  obtain ⟨mid, hmid, hprefix⟩ := callFront_of_call hv.emitted
  refine ⟨mid, hmid, hprefix, ?_, fun n x hx hpc => ?_⟩
  · rw [hcall.pc_front harity hmid]
    rcases hcall.cell himp with ⟨-, hcell⟩ | ⟨q, hq, hname, -, hcell⟩
    · exact .inl hcell
    · exact .inr ⟨_, hname ▸ himp.labels q hq, himp.has_entry hq, hcell⟩
  · obtain ⟨s, hs, hdepth⟩ := hruns n x hx hpc
    refine ⟨fun z hz => hs.passes_arguments himp hin harity hcall hmid hpc hdepth hz, fun z hz => ?_⟩
    have hdeep := hs.represents.mirrors.deep (hs.located.fits himp hs.sound.depth_lt).called
    exact (hs.balanced himp hin harity hP hv.emitted hpc hdepth hz).rsp (hdepth ▸ hdeep)
      (hP.coded.walk harity hv.emitted).1

theorem visits_sampleCall : ∃ lines st g l out, Part.Visits sampleAnalysis (.functions sampleProgram.functions) {} lines
    (.expr (.call st g sampleArguments)) l out ∧ codeLength lines = 70 ∧ codeLength (lines ++ out.lines) = 87 ∧
      (callFront sampleAnalysis sampleArguments l).toOption.map (codeLength <| lines ++ ·.lines) = some 84 := by
  refine ⟨_, _, _, _, _, .further .functions (eq_ok_get ?_) (.further .function rfl (.further .body (eq_ok_get ?_)
    (.further .head rfl (.further .returned rfl (.here (eq_ok_get ?_)))))), ?_, ?_, ?_⟩
  all_goals decide +kernel

/-- Six arguments are in registers and the last one is on the stack. -/
theorem run_sampleCall : ((sampleCode.first? (·.pc = 70) 10 sampleStart).bind fun x =>
    (sampleCode.traverse? 84 20 x).bind fun z => (sampleCode.traverse? 87 160 x).map fun _ =>
      match Act.argumentsFrom 0 7 z.cpu with
      | .ok ws _ => ws
      | .error _ _ => []) = some [1, 2, 3, 4, 5, 6, 3] := by
  decide +kernel

theorem arguments_passed_sample : ∃ code pc cpu lines st g l out mid n x z z',
    Code.ofModule sampleModule = .ok code ∧ code.labels.get? Compilation.entryPoint = some pc ∧
      Machine.entered (.replicate stackWords 0) = (.ok (), cpu) ∧
      Part.Visits sampleAnalysis (.functions sampleProgram.functions) {} lines
        (.expr (.call st g sampleArguments)) l out ∧
      callFront sampleAnalysis sampleArguments l = .ok mid ∧ code.Runs n ⟨pc, cpu, (⟨[], ""⟩ : Script)⟩ x ∧
      code.Traverses (codeLength (lines ++ mid.lines)) x z ∧ code.Traverses (codeLength (lines ++ out.lines)) x z' ∧
      code.CallsAt z.pc g.name ∧ Act.argumentsFrom 0 7 z.cpu = .ok [1, 2, 3, 4, 5, 6, 3] z.cpu ∧
      code.Passes sampleAnalysis lines l mid.lines g sampleArguments x z 6 3 ∧
      z'.cpu.get .rsp = x.cpu.get .rsp - Int64.ofNat wordSize := by
  have hmain : sampleMain ∈ sampleProgram.functions := List.mem_cons_of_mem _ List.mem_cons_self
  obtain ⟨code, pc, cpu, hcode, hpc, hcpu, hcalls⟩ := arguments_passed compiled_sample
    (Nat.lt_trans length_sample (by decide)) hmain (.replicate stackWords 0) (⟨[], ""⟩ : Script)
  obtain rfl := Except.ok.inj (code_sample.symm.trans hcode)
  obtain ⟨lines, st, g, l, out, hv, hplace, hend, hfront⟩ := visits_sampleCall
  obtain ⟨mid, hmid, -, hat, hruns⟩ := hcalls lines st g sampleArguments l out hv
  obtain ⟨x, hx, hz⟩ := Option.bind_eq_some_iff.1 run_sampleCall
  obtain ⟨z, hz, hz'⟩ := Option.bind_eq_some_iff.1 hz
  obtain ⟨z', hz', hvalues⟩ := Option.map_eq_some_iff.1 hz'
  obtain ⟨hx, n, hn, -⟩ := Code.first?_eq_some hx
  rw [← eq_sampleStart hpc hcpu] at hn
  have htraverses := Code.traverses_of_traverse? hz
  have htraverses' := Code.traverses_of_traverse? hz'
  rw [hmid] at hfront
  rw [← Option.some.inj hfront] at htraverses
  rw [← hend] at htraverses'
  obtain ⟨hpassed, hbehind⟩ := hruns n x hn ((of_decide_eq_true hx).trans hplace.symm)
  obtain ⟨ws, -, hws, hpasses⟩ := hpassed z htraverses
  rw [show sampleArguments.length = 7 from rfl] at hws
  rw [hws] at hvalues
  cases hvalues
  exact ⟨_, pc, cpu, lines, st, g, l, out, mid, n, x, z, z', hcode, hpc, hcpu, hv, hmid, hn, htraverses, htraverses',
    htraverses.stops ▸ hat, hws, hpasses 6 3 rfl, hbehind z' htraverses'⟩

end Compiled

end MicroC
