import MicroC.Proofs.Emission.Renumbering
import MicroC.Proofs.Parser.Unrolled

/-!
# Loops mean what they stand for

A program with a `for` loop and the program with that loop spelled out are parsed to the same tree, so they
differ in numbers and places only, and neither the analysis nor the code depends on these.

* `GeneratedAlike`, `CompiledAlike`: programs with the same code, and sources with the same compilation.
* **`loop_compiled_as_unrolled`**: a loop means what it stands for.
-/

namespace MicroC

open Grammar

/-- Both sources are rejected, or both are compiled to the same module with the same statistics. -/
def CompiledAlike (source source' : String) (options : CompileOptions) : Prop :=
  (∃ e e', compile source options = .error e ∧ compile source' options = .error e') ∨
    ∃ c c', compile source options = .ok c ∧ compile source' options = .ok c' ∧ c.module = c'.module ∧
      c.stats = c'.stats

/-- Both programs are rejected by the analysis for the same fault, both are accepted but have no code for the same
fault, or both have the same module. -/
def GeneratedAlike (p p' : Program) : Prop :=
  (∃ e e', analyze .runtime p = .error e ∧ analyze .runtime p' = .error e' ∧ e.fault = e'.fault) ∨
    ∃ a a', analyze .runtime p = .ok a ∧ analyze .runtime p' = .ok a' ∧
      ((∃ e e', generate a p = .error e ∧ generate a' p' = .error e' ∧ e.fault.Like e'.fault) ∨
        ∃ m, generate a p = .ok m ∧ generate a' p' = .ok m)

theorem generatedAlike_of_like {R : NodeId → NodeId → Prop} (hR : OneToOne R) {p p' : Program}
    (h : List.Forall₂ (Func.Like R) p.functions p'.functions) : GeneratedAlike p p' := by
  have hanalysed := analyze_alike hR .runtime h
  unfold GeneratedAlike
  revert hanalysed
  generalize analyze .runtime p = r, analyze .runtime p' = r'
  rintro (ha | he)
  · exact .inr ⟨_, _, rfl, rfl, generate_alike hR ha h⟩
  · exact .inl ⟨_, _, rfl, rfl, he⟩

theorem GeneratedAlike.compile {source source' : String} {p p' : Program} (h : GeneratedAlike p p')
    (hp : parseProgram source = .ok p) (hp' : parseProgram source' = .ok p') (options : CompileOptions) :
    CompiledAlike source source' options := by
  unfold CompiledAlike MicroC.compile
  rw [hp, hp']
  dsimp only
  rcases h with ⟨e, e', ha, ha', -⟩ | ⟨a, a', ha, ha', h⟩
  · rw [ha, ha']
    exact .inl ⟨_, _, rfl, rfl⟩
  rw [ha, ha']
  dsimp only
  rcases h with ⟨e, e', hm, hm', -⟩ | ⟨m, hm, hm'⟩
  · rw [hm, hm']
    exact .inl ⟨_, _, rfl, rfl⟩
  rw [hm, hm']
  dsimp only
  split
  · exact .inr ⟨_, _, rfl, rfl, rfl, rfl⟩
  · exact .inr ⟨_, _, rfl, rfl, rfl, rfl⟩

/-- **A loop means what it stands for.** A source that is parsed and has a `for` loop in it, and a source with the same
tokens except that the loop is spelled out, are parsed to the same tree, accepted or rejected alike by the
analysis and by the emission of code, and compiled to the same module with every choice of rewrites. -/
theorem loop_compiled_as_unrolled {source source' : String} {p : Program} {ts : List Token}
    (h : parseProgram source = .ok p) (hu : Routines.Unrolls (scan source).tokens ts)
    (herr : (scan source').errors = []) (hts : SameText ts (scan source').tokens) :
    ∃ p', parseProgram source' = .ok p' ∧ p'.routines = p.routines ∧ GeneratedAlike p p' ∧
      ∀ options, CompiledAlike source source' options := by
  obtain ⟨p', hp', htree⟩ := parseProgram_of_unrolls h hu herr hts
  obtain ⟨R, hR, hlike⟩ := like_of_routines h hp' htree.symm
  have halike := generatedAlike_of_like hR hlike
  exact ⟨p', hp', htree, halike, halike.compile h hp'⟩

section Sample

/-- A loop that declares a variable, with an `if` without `else` as its body. -/
def loopSource : String := "int f(int n)\x7bfor(int i=n;i;i=n)if(n)n;\x7d"

def unrolledSource : String := "int f(int n)\x7b\x7bint i=n;while(i)\x7b\x7bif(n)n;\x7di=n;\x7d\x7d\x7d"

/-- A token of one line. -/
def tokenAt (kind : TokenKind) (lexeme : String) (col : Nat) : Token := ⟨kind, lexeme, ⟨1, col, lexeme.length⟩⟩

theorem derives_name (n : String) (col : Nat) :
    Derives .equality [tokenAt .identifier n col] (.var n) :=
  .ofComparison (.ofAdditive (.ofMultiplicative (.ofUnary (.ofExponent (.ofAtom (.var rfl))))))

theorem unrolls_loopSource : ∃ ts, Routines.Unrolls (scan loopSource).tokens ts ∧
    SameText ts (scan unrolledSource).tokens := by
  have hinit := Simple.init (k := tokenAt .identifier "int" 18) (n := tokenAt .identifier "i" 22)
    (q := tokenAt .equals "=" 23) (t := tokenAt .semicolon ";" 25) rfl rfl rfl (.ofEquality (derives_name "n" 24)) rfl
  have hstep := Derives.assign (t := tokenAt .equals "=" 29) (derives_name "i" 28) rfl
    (.ofEquality (derives_name "n" 30))
  have hbody : Statement true true _ _ := .ifThen (k := tokenAt .ifKw "if" 32) (l := tokenAt .leftParen "(" 34)
    (r := tokenAt .rightParen ")" 36) rfl rfl (.ofEquality (derives_name "n" 35)) rfl
    (.simple (.expr (t := tokenAt .semicolon ";" 38) (.ofEquality (derives_name "n" 37)) rfl))
  have hloop := Statement.Unrolls.here (k := tokenAt .forKw "for" 14) (l := tokenAt .leftParen "(" 17)
    (q := tokenAt .semicolon ";" 27) (r := tokenAt .rightParen ")" 31) rfl rfl hinit
    (.ofEquality (derives_name "i" 26)) rfl hstep rfl hbody
  have hall := Routines.Unrolls.here (k := tokenAt .identifier "int" 1) (n := tokenAt .identifier "f" 5)
    (l := tokenAt .leftParen "(" 6) (r := tokenAt .rightParen ")" 12) (b := tokenAt .leftBrace "\x7b" 13)
    (e := tokenAt .rightBrace "\x7d" 39) rfl rfl rfl
    (.inr (.last (k := tokenAt .identifier "int" 7) (n := tokenAt .identifier "n" 11) rfl rfl)) rfl rfl
    (.here hloop .nil) rfl .nil
  refine ⟨_, hall.cast (by decide +kernel), ?_⟩
  unfold SameText
  decide +kernel

theorem loop_compiled_as_unrolled_sample : ∃ p p', parseProgram loopSource = .ok p ∧
    parseProgram unrolledSource = .ok p' ∧ p'.routines = p.routines ∧ GeneratedAlike p p' ∧
      ∀ options, CompiledAlike loopSource unrolledSource options := by
  obtain ⟨ts, hu, hts⟩ := unrolls_loopSource
  obtain ⟨rs, hrs, -⟩ := hu.derived
  have hread : Readable loopSource := by
    unfold Readable InRange
    decide +kernel
  obtain ⟨p, hp, -⟩ := (parseProgram_iff loopSource rs).2 ⟨hread, hrs⟩
  obtain ⟨p', hp', hall⟩ := loop_compiled_as_unrolled hp hu (by decide +kernel) hts
  exact ⟨p, p', hp, hp', hall⟩

end Sample

end MicroC
