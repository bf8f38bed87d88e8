import Mathlib
import MicroC.Proofs.Compilation.Modules
import MicroC.Proofs.Compilation.Size

/-!
# Runs of compiled programs

Return addresses are kept on the stack as words, and displacements are words too. Results about runs are for
sources of fewer than `2 ^ 55` characters, whose code and frames have no more places than there are words for them.

* `Machine.run_cases`: a run ends within its steps, or is cut off.
* `Sample`: a source with a function that has seven parameters, a variable and a loop, its tree, and a run of it.
* `Compiled.instructionCount_lt`: the number of places in the code of such a source.
* `callDepth_lt_slack`: calls stand inside one another so deep only in sources of half a gigabyte.
* **`compiled_runs_safely`**: a compiled program only fails in a few ways.
* **`optimised_run_agrees`**: reductions do not change what a run comes to.
-/

namespace MicroC

open Convention Code

/-! ## Runs of built modules -/

section Built

variable {σ : Type} {m : Module} {prog : List Subroutine} {mode : Mode} {code : Code} {r : Subroutine}

theorem Built.machine (h : Built m prog mode code) (host : σ) (limit : Nat) :
    Machine.ofModule m host limit = .ok ⟨code, .replicate stackWords 0, host, limit, 0⟩ := by
  rw [Machine.ofModule, h.made]
  rfl

variable [Host σ]

/-- A run ends within its steps, or is cut off. -/
theorem Machine.run_cases (himp : code.Implements prog) (hin : InOrder prog mode) (hr : r ∈ prog)
    (hguard : mode.guarded = true → r.arity ≤ argumentRegisters.length) (stack : Stack) (host : σ)
    (limit steps : Nat) :
    (∃ p n f, Running prog mode (outermost r) p ∧ p.host = host ∧ code.Halts n p f ∧ entryWidth + n ≤ limit ∧
        (Machine.mk code stack host limit steps).run r.name =
          (f.result, ⟨code, f.cpu.stack, f.host, limit, entryWidth + n⟩)) ∨
      ((Machine.mk code stack host limit steps).run r.name).1 = .error (.stepLimitExceeded limit) := by
  obtain ⟨p, hp, hhost, hhalts, hruns⟩ := Machine.run_outermost himp hin hr hguard stack host limit steps
  by_cases hlimit : entryWidth ≤ limit
  · rcases runs_or_halts code (limit - entryWidth) p with ⟨q, hq⟩ | ⟨n, f, hn, hf⟩
    · exact .inr (hruns _ q hq (by omega))
    · have hle : entryWidth + n ≤ limit := by omega
      exact .inl ⟨p, n, f, hp, hhost, hf, hle, hhalts n f hf hle⟩
  · exact .inr (hruns 0 p (.refl p) (by omega))

/-- What a chain of steps comes to, a run comes to, if it may take that many steps. -/
theorem Finishes.run {n : Nat} {host host' : σ} {res : Except MachineError Int64}
    (hf : Finishes prog n (outermost r) host res host') (himp : code.Implements prog) (hin : InOrder prog mode)
    (hr : r ∈ prog) (hguard : mode.guarded = true → r.arity ≤ argumentRegisters.length) (stack : Stack)
    (steps : Nat) {limit : Nat} (hn : entryWidth + n ≤ limit) :
    ∃ k stack', k ≤ n ∧ (Machine.mk code stack host limit steps).run r.name =
      (res, ⟨code, stack', host', limit, entryWidth + k⟩) := by
  obtain ⟨p, hp, hhost, hhalts, -⟩ := Machine.run_outermost himp hin hr hguard stack host limit steps
  obtain ⟨k, cpu, hk, hf'⟩ := hf.halts himp hin hp hhost
  exact ⟨k, cpu.stack, hk, hhalts k _ hf' (by omega)⟩

end Built

/-! ## A sample -/

section Sample

open MicroC.Parser

namespace Sample

def token (kind : TokenKind) (lexeme : String) (column length : Nat) : Token := ⟨kind, lexeme, ⟨1, column, length⟩⟩

def site (id column length : Nat) : Site := ⟨⟨id⟩, ⟨1, column, length⟩⟩

def ident (name : String) (column length : Nat) : Ident := ⟨name, ⟨1, column, length⟩⟩

def var (id : Nat) (name : String) (column : Nat) : Expr := .var (site id column 1) (ident name column 1)

def int (id : Nat) (value : Int64) (column : Nat) : Expr := .int (site id column 1) value

def param (id : Nat) (name : String) (column : Nat) : Binder :=
  ⟨site id column 5, ident "int" column 3, ident name (column + 4) 1⟩

/-- An assignment of a variable and something else to the variable. -/
def update (id : Nat) (name : String) (column : Nat) (op : BinaryOp) (y : Expr) : Stmt :=
  .expr (site (id + 5) column 10) (.binary (site (id + 4) column 9) .assign ⟨1, column + 2, 1⟩ (var id name column)
    (.binary (site (id + 3) (column + 4) 5) op ⟨1, column + 6, 1⟩ (var (id + 1) name (column + 4)) y))

end Sample

open Sample

/-- A function with a local variable, a loop and more parameters than there are registers for, and a call of it. -/
def sampleSource : String :=
  "int sum(int a, int b, int c, int d, int e, int f, int n) \x7b int s = a; while (0 < n) \x7b s = s + n; n = n - 1; \x7d return s; \x7d int main() \x7b return sum(1, 2, 3, 4, 5, 6, 3); \x7d"

def sampleTokens : List Token :=
  [token .identifier "int" 1 3, token .identifier "sum" 5 3, token .leftParen "(" 8 1, token .identifier "int" 9 3,
    token .identifier "a" 13 1, token .comma "," 14 1, token .identifier "int" 16 3, token .identifier "b" 20 1,
    token .comma "," 21 1, token .identifier "int" 23 3, token .identifier "c" 27 1, token .comma "," 28 1,
    token .identifier "int" 30 3, token .identifier "d" 34 1, token .comma "," 35 1, token .identifier "int" 37 3,
    token .identifier "e" 41 1, token .comma "," 42 1, token .identifier "int" 44 3, token .identifier "f" 48 1,
    token .comma "," 49 1, token .identifier "int" 51 3, token .identifier "n" 55 1, token .rightParen ")" 56 1,
    token .leftBrace "\x7b" 58 1, token .identifier "int" 60 3, token .identifier "s" 64 1, token .equals "=" 66 1,
    token .identifier "a" 68 1, token .semicolon ";" 69 1, token .whileKw "while" 71 5, token .leftParen "(" 77 1,
    token .intLiteral "0" 78 1, token .less "<" 80 1, token .identifier "n" 82 1, token .rightParen ")" 83 1,
    token .leftBrace "\x7b" 85 1, token .identifier "s" 87 1, token .equals "=" 89 1, token .identifier "s" 91 1,
    token .plus "+" 93 1, token .identifier "n" 95 1, token .semicolon ";" 96 1, token .identifier "n" 98 1,
    token .equals "=" 100 1, token .identifier "n" 102 1, token .minus "-" 104 1, token .intLiteral "1" 106 1,
    token .semicolon ";" 107 1, token .rightBrace "\x7d" 109 1, token .returnKw "return" 111 6,
    token .identifier "s" 118 1, token .semicolon ";" 119 1, token .rightBrace "\x7d" 121 1,
    token .identifier "int" 123 3, token .identifier "main" 127 4, token .leftParen "(" 131 1,
    token .rightParen ")" 132 1, token .leftBrace "\x7b" 134 1, token .returnKw "return" 136 6,
    token .identifier "sum" 143 3, token .leftParen "(" 146 1, token .intLiteral "1" 147 1, token .comma "," 148 1,
    token .intLiteral "2" 150 1, token .comma "," 151 1, token .intLiteral "3" 153 1, token .comma "," 154 1,
    token .intLiteral "4" 156 1, token .comma "," 157 1, token .intLiteral "5" 159 1, token .comma "," 160 1,
    token .intLiteral "6" 162 1, token .comma "," 163 1, token .intLiteral "3" 165 1, token .rightParen ")" 166 1,
    token .semicolon ";" 167 1, token .rightBrace "\x7d" 169 1]

def sampleLoop : Stmt :=
  .loop (site 25 71 39) (.binary (site 11 78 5) .less ⟨1, 80, 1⟩ (int 9 0 78) (var 10 "n" 82))
    (.block (site 24 85 25) [update 12 "s" 87 .add (var 14 "n" 95), update 18 "n" 98 .sub (int 20 1 106)])

def sampleArguments : List Expr :=
  [int 30 1 147, int 31 2 150, int 32 3 153, int 33 4 156, int 34 5 159, int 35 6 162, int 36 3 165]

def sampleFunction : Func where
  site := site 29 1 121
  returns := ident "int" 1 3
  name := ident "sum" 5 3
  params := [param 0 "a" 9, param 1 "b" 16, param 2 "c" 23, param 3 "d" 30, param 4 "e" 37, param 5 "f" 44,
    param 6 "n" 51]
  bodySite := site 28 58 64
  body := [.decl ⟨site 8 60 10, ident "int" 60 3, ident "s" 64 1⟩ (some (var 7 "a" 68)), sampleLoop,
    .ret (site 27 111 9) (some (var 26 "s" 118))]

def sampleMain : Func where
  site := site 40 123 47
  returns := ident "int" 123 3
  name := ident "main" 127 4
  params := []
  bodySite := site 39 134 36
  body := [.ret (site 38 136 32) (some (.call (site 37 143 24) (ident "sum" 143 3) sampleArguments))]

def sampleProgram : Program := ⟨site 41 1 169, [sampleFunction, sampleMain]⟩

theorem scan_sample : scan sampleSource = ⟨sampleTokens, []⟩ := by
  unfold scan placed sampleSource
  rw [String.toList_ofList]
  decide +kernel

theorem length_sample : sampleSource.length < 2 ^ 29 := by
  unfold sampleSource
  rw [← String.length_toList, String.toList_ofList]
  decide +kernel

theorem parse_sample : parseProgram sampleSource = .ok sampleProgram := by
  unfold parseProgram parseSource
  rw [scan_sample]
  cbv

@[irreducible]
def sampleAnalysis : Analysis := (analyze .runtime sampleProgram).toOption.get (by decide +kernel)

@[irreducible]
def sampleModule : Module := (generate sampleAnalysis sampleProgram).toOption.get (by decide +kernel)

@[irreducible]
def sampleCode : Code := (Code.ofModule sampleModule).toOption.get (by decide +kernel)

theorem eq_ok_get {ε α : Type} {x : Except ε α} (h : x.toOption.isSome = true) : x = .ok (x.toOption.get h) := by
  cases x with
  | ok a => rfl
  | error e => cases h

theorem compiled_sample : Compiled sampleSource sampleProgram sampleAnalysis sampleModule where
  parsed := parse_sample
  analysed := by
    unfold sampleAnalysis
    exact eq_ok_get _
  generated := by
    unfold sampleModule
    exact eq_ok_get _

theorem code_sample : Code.ofModule sampleModule = .ok sampleCode := by
  unfold sampleCode
  exact eq_ok_get _

theorem compile_sample :
    compile sampleSource { optimise := false } = .ok ⟨none, sampleAnalysis, sampleModule, none⟩ := by
  rw [compile, compiled_sample.parsed]
  dsimp only
  rw [compiled_sample.analysed]
  dsimp only
  rw [compiled_sample.generated]
  rfl

theorem machine_sample (host : Script) (limit : Nat) :
    Machine.ofModule sampleModule host limit = .ok ⟨sampleCode, .replicate stackWords 0, host, limit, 0⟩ := by
  rw [Machine.ofModule, code_sample]
  rfl

theorem run_sample (machine : Machine Script)
    (h : Machine.ofModule sampleModule (⟨[], ""⟩ : Script) 200 = .ok machine) :
    (machine.run Compilation.entryPoint).1 = .ok 7 ∧ (machine.run Compilation.entryPoint).2.steps = 171 := by
  obtain rfl := Except.ok.inj ((machine_sample _ _).symm.trans h)
  decide +kernel

/-- Where a run of the sample begins. -/
def sampleStart : Point Script := ⟨62, (Machine.entered (.replicate stackWords 0)).2, ⟨[], ""⟩⟩

theorem eq_sampleStart {pc : Nat} {cpu : Cpu} (hpc : sampleCode.labels.get? Compilation.entryPoint = some pc)
    (hcpu : Machine.entered (.replicate stackWords 0) = (.ok (), cpu)) :
    (⟨pc, cpu, ⟨[], ""⟩⟩ : Point Script) = sampleStart := by
  have hlabel : sampleCode.labels.get? Compilation.entryPoint = some 62 := by decide +kernel
  rw [hlabel] at hpc
  cases hpc
  rw [sampleStart, hcpu]

end Sample

/-! ## Safety -/

section Compiled

variable {source : String} {p : Program} {a : Analysis} {m m' : Module}

/-- Where a source has so few characters, return addresses and displacements are words: there are at most sixteen
instructions for a character, and none of them pushes more than eight bytes. -/
theorem Compiled.instructionCount_lt (h : Compiled source p a m) (hlen : source.length < 2 ^ 55) :
    m.instructionCount < 2 ^ 59 := by
  have := h.size_le
  omega

theorem read_script_error {s : Script} {e : MachineError} (h : (Host.read s).1 = .error e) : e = .inputExhausted := by
  obtain ⟨input, output⟩ := s
  cases input with
  | nil =>
    cases h
    rfl
  | cons w ws => cases h

/-- What is asked of the routines of a program: that no variable is without an initial value, and that calls do not
stand so deep inside one another that their padding, which is not checked, moves the stack pointer below the first
address. -/
def Program.mode (p : Program) : Mode where
  strict := p.initialised
  thin := p.initialised && decide (p.callDepth < slack)
  guarded := true

theorem Program.allows_mode (p : Program) : p.Allows p.mode := by
  refine ⟨id, fun hthin => ?_⟩
  simp only [mode, Bool.and_eq_true, decide_eq_true_eq] at hthin ⊢
  exact hthin

/-- There is no source of less than half a gigabyte in which calls stand that deep inside one another. -/
theorem callDepth_lt_slack (h : parseProgram source = .ok p) (hlen : source.length < 2 ^ 29) : p.callDepth < slack := by
  have hdepth := callDepth_le_of_parseProgram h
  have hslack : slack = 268296191 := rfl
  omega

/-- **A compiled program goes wrong only in a few ways**, reduced or not. Where every variable has an initial value
there is no invalid address either, as long as fewer than `slack` calls, some 268 million, stand inside one another. -/
theorem compiled_runs_safely {options : CompileOptions} {c : Compilation} {f : Func}
    (hparse : parseProgram source = .ok p) (hc : compile source options = .ok c)
    (hlen : source.length < 2 ^ 55) (hf : f ∈ p.functions) (hmain : f.name.name = Compilation.entryPoint)
    (harity : f.params.length ≤ 6) (script : Script) (limit : Nat) :
    ∃ machine, Machine.ofModule c.module script limit = .ok machine ∧
      ∀ e, (machine.run Compilation.entryPoint).1 = .error e →
        e = .stackOverflow ∨ e = .divisionByZero ∨ e = .divisionOverflow ∨ e = .stepLimitExceeded limit ∨
          e = .inputExhausted ∨
            (∃ address, e = .invalidAddress address) ∧ ¬ (p.initialised = true ∧ p.callDepth < slack) := by
  obtain ⟨p', m, hcompiled, hmodule⟩ := compiled_of_compile hc
  obtain rfl : p = p' := Except.ok.inj (hparse.symm.trans hcompiled.parsed)
  have hvariant : m.Variant c.module := by
    rw [hmodule]
    split
    · exact .reduced _
    · exact .same
  obtain ⟨prog, n, code, hcode, -, hbuilds⟩ :=
    hcompiled.builds p.allows_mode (hcompiled.instructionCount_lt hlen)
  obtain ⟨prog', code', hbuilt, hturned⟩ := hbuilds c.module hvariant
  obtain ⟨r, hr, hrname, hrarity⟩ := hcode.exists_routine hf
  obtain ⟨r', hr', hrname', hrarity'⟩ := hturned.exists_routine hr
  have hname : r'.name = Compilation.entryPoint := hrname'.trans (hrname.trans hmain)
  have hguard : r'.arity ≤ argumentRegisters.length := by
    rw [hrarity', hrarity]
    exact harity
  refine ⟨_, hbuilt.machine script limit, fun e he => ?_⟩
  rw [← hname] at he
  rcases Machine.run_cases hbuilt.implements hbuilt.inOrder hr' (fun _ => hguard) (.replicate stackWords 0)
      script limit 0 with ⟨q, k, halt, hq, -, hhalts, -, hrun⟩ | hcut
  · rw [hrun] at he
    rcases halts_safely hbuilt.implements hbuilt.inOrder hq hhalts he with hallows | ⟨host, hread⟩
    · cases e with
      | stackOverflow => exact .inl rfl
      | divisionByZero => exact .inr (.inl rfl)
      | divisionOverflow => exact .inr (.inr (.inl rfl))
      | invalidAddress address =>
        refine .inr (.inr (.inr (.inr (.inr ⟨⟨address, rfl⟩, fun h => hallows ⟨h.1, ?_, rfl⟩⟩))))
        exact Bool.and_eq_true_iff.2 ⟨h.1, decide_eq_true h.2⟩
      | _ => cases hallows
    · exact .inr (.inr (.inr (.inr (.inl (read_script_error hread)))))
  · rw [hcut] at he
    cases he
    exact .inr (.inr (.inr (.inl rfl)))

/-- In the sample no variable lacks an initial value and one call stands alone, so no address is invalid. -/
theorem compiled_runs_safely_sample : ∃ c, compile sampleSource { optimise := false } = .ok c ∧
    (∀ (script : Script) limit, ∃ machine, Machine.ofModule c.module script limit = .ok machine ∧
      ∀ e, (machine.run Compilation.entryPoint).1 = .error e →
        e = .stackOverflow ∨ e = .divisionByZero ∨ e = .divisionOverflow ∨ e = .stepLimitExceeded limit ∨
          e = .inputExhausted) ∧
    ∃ machine, Machine.ofModule c.module (⟨[], ""⟩ : Script) 200 = .ok machine ∧
      (machine.run Compilation.entryPoint).1 = .ok 7 := by
  refine ⟨_, compile_sample, fun script limit => ?_, _, machine_sample _ _, (run_sample _ (machine_sample _ _)).1⟩
  have hdepth := callDepth_lt_slack parse_sample length_sample
  have hinit : sampleProgram.initialised = true := by decide +kernel
  obtain ⟨machine, hmachine, hsafe⟩ := compiled_runs_safely parse_sample compile_sample
    (Nat.lt_trans length_sample (by decide)) (List.mem_cons_of_mem _ List.mem_cons_self) rfl (Nat.zero_le 6) script
    limit
  refine ⟨machine, hmachine, fun e he => ?_⟩
  rcases hsafe e he with h | h | h | h | h | ⟨-, h⟩
  · exact .inl h
  · exact .inr (.inl h)
  · exact .inr (.inr (.inl h))
  · exact .inr (.inr (.inr (.inl h)))
  · exact .inr (.inr (.inr (.inr h)))
  · exact absurd ⟨hinit, hdepth⟩ h

/-! ## Reductions -/

/-- **Reductions do not change what a run comes to.** If a run from a function yields a value, or divides by
zero, overflows a division or finds no more input, it does so behind any reductions, with the same input
read and the same output, and in no more steps. -/
theorem optimised_run_agrees {σ : Type} [Host σ] {f : Func} (h : Compiled source p a m)
    (hlen : source.length < 2 ^ 55) (hinit : p.initialised = true) (hf : f ∈ p.functions) (rs : Reductions)
    (host : σ) (limit : Nat) :
    ∃ machine machine', Machine.ofModule m host limit = .ok machine ∧
      Machine.ofModule (m.optimise rs).1 host limit = .ok machine' ∧
      ∀ res, (machine.run f.name.name).1 = res →
        (∃ v, res = .ok v) ∨ res = .error .divisionByZero ∨ res = .error .divisionOverflow ∨
          res = .error .inputExhausted →
        (machine'.run f.name.name).1 = res ∧
          (machine'.run f.name.name).2.host = (machine.run f.name.name).2.host ∧
          (machine'.run f.name.name).2.steps ≤ (machine.run f.name.name).2.steps := by
  have hmode : p.Allows ⟨true, false, false⟩ := ⟨fun _ => hinit, nofun⟩
  obtain ⟨prog, n, code, hcode, hbuilt, hbuilds⟩ := h.builds hmode (h.instructionCount_lt hlen)
  obtain ⟨prog', code', hbuilt', hturned⟩ := hbuilds _ (.reduced rs)
  obtain ⟨r, hr, hname, -⟩ := hcode.exists_routine hf
  refine ⟨_, _, hbuilt.machine host limit, hbuilt'.machine host limit, fun res hres hplain => ?_⟩
  have hstack : ∀ e, res = .error e → e.ofStack = false := by
    rintro e rfl
    rcases hplain with ⟨v, hv⟩ | he | he | he
    · cases hv
    all_goals
      cases he
      rfl
  rw [← hname] at hres ⊢
  rcases Machine.run_cases hbuilt.implements hbuilt.inOrder hr nofun (.replicate stackWords 0) host limit 0
    with ⟨q, k, halt, hq, hhost, hhalts, hk, hrun⟩ | hcut
  · rw [hrun] at hres ⊢
    subst hres
    have hfinishes := ends_of_halts hbuilt.implements hbuilt.inOrder rfl hq hhalts hstack
    rw [hhost] at hfinishes
    obtain ⟨r', hr', hname', k', hk', hfinishes'⟩ :=
      hturned.finishes rfl rfl hbuilt.inOrder hr nofun hfinishes hstack
    have hk : entryWidth + k' ≤ limit := by omega
    obtain ⟨k'', stack', hk'', hrun'⟩ := hfinishes'.run hbuilt'.implements hbuilt'.inOrder hr' nofun
      (.replicate stackWords 0) 0 hk
    rw [← hname', hrun']
    exact ⟨rfl, rfl, by simp only; omega⟩
  · rw [hcut] at hres
    subst hres
    simp at hplain

theorem optimised_run_agrees_sample : ∃ machine machine',
    Machine.ofModule sampleModule (⟨[], ""⟩ : Script) 200 = .ok machine ∧
      Machine.ofModule (sampleModule.optimise .all).1 (⟨[], ""⟩ : Script) 200 = .ok machine' ∧
      (machine.run Compilation.entryPoint).1 = .ok 7 ∧ (machine.run Compilation.entryPoint).2.steps = 171 ∧
      (machine'.run Compilation.entryPoint).1 = .ok 7 ∧ (machine'.run Compilation.entryPoint).2.steps ≤ 171 := by
  have hmain : sampleMain ∈ sampleProgram.functions := List.mem_cons_of_mem _ List.mem_cons_self
  obtain ⟨machine, machine', hmachine, hmachine', hagree⟩ :=
    optimised_run_agrees compiled_sample (Nat.lt_trans length_sample (by decide)) (by decide +kernel) hmain .all
      (⟨[], ""⟩ : Script) 200
  obtain ⟨hresult, hsteps⟩ := run_sample machine hmachine
  obtain ⟨hresult', -, hsteps'⟩ := hagree _ hresult (.inl ⟨7, rfl⟩)
  exact ⟨machine, machine', hmachine, hmachine', hresult, hsteps, hresult', hsteps ▸ hsteps'⟩

end Compiled

end MicroC
