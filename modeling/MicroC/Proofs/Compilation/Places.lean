import MicroC.Compilation
import MicroC.Proofs.Emission.Unplaced
import MicroC.Proofs.Parser.Unplaced
import MicroC.Proofs.Token.Lexeme

/-!
# Compiling without looking at places

What becomes of a source depends on the kinds and the texts of its tokens and not on where they stand. Every stage
commutes with forgetting places, so two sources with the same tokens compile to the same module, or are rejected by
the same stage for the same reason.

* `Parser.unplaced_ofTokens`: without places, parsers in front of the same tokens are the same.
* `CompileError.Alike`, `Compilation.EndsAlike`: errors and ends of compilations that differ in places only.
* **`compile_alike`**: sources with the same tokens are compiled alike.
-/

namespace MicroC

open Grammar

/-! ## Reading -/

theorem Parser.unplaced_ofTokens {ts us : List Token} (h : SameText ts us) :
    (ofTokens us).unplaced = (ofTokens ts).unplaced := by
  have hlift : Token.unplaced = (fun x : TokenKind × String => (⟨x.1, x.2, .nowhere⟩ : Token)) ∘ text := rfl
  have hmap : us.map Token.unplaced = ts.map Token.unplaced := by
    rw [hlift, ← List.map_map, ← List.map_map, h]
  exact congrArg (fun ahead => Parser.mk ahead .nowhere {}) hmap

/-- All of the tokens ahead as one program. -/
def Parser.whole (s : Parser) : Except ParseError Program :=
  match s.program.1 with
  | (.error e, _) => .error e
  | (.ok p, t) =>
    match (t.expect .eof).1 with
    | .error e => .error e
    | .ok _ => .ok p

theorem parseProgram_eq_whole {source : String} (h : (scan source).errors = []) :
    parseProgram source = (Parser.ofTokens (scan source).tokens).whole.mapError .parse := by
  unfold parseProgram parseSource Scan.result Parser.whole
  rw [h, List.isEmpty_nil, if_pos rfl]
  dsimp only
  cases (Parser.ofTokens (scan source).tokens).program.1 with
  | mk o t =>
  cases o with
  | error e => rfl
  | ok p =>
    dsimp only
    cases (t.expect .eof).1 <;> rfl

/-- An outcome of parsing without places. -/
def unplacedProgram (o : Except ParseError Program) : Except ParseError Program :=
  (o.map Program.unplaced).mapError ParseError.unplaced

theorem Parser.whole_unplaced (s : Parser) : s.unplaced.whole = unplacedProgram s.whole := by
  unfold whole
  rw [program_unplaced]
  cases s.program.1 with
  | mk o t =>
  cases o with
  | error e => rfl
  | ok p =>
    have hend := congrArg Prod.fst (Reading.expect_unplaced t .eof)
    change (t.unplaced.expect .eof).1 = (unplacedOutcome Token.unplaced (t.expect .eof)).1 at hend
    dsimp only [unplacedOutcome]
    rw [hend]
    cases t.expect .eof with
    | mk o u => cases o <;> rfl

/-! ## Ends of compilations -/

/-- Errors of the same stage that differ in places only. -/
inductive CompileError.Alike : CompileError → CompileError → Prop
  | parse {e e' : ParseError} (hfault : e.fault = e'.fault) (htoken : e.token.unplaced = e'.token.unplaced)
      (hcategory : e.category = e'.category) (hfound : e.found = e'.found) : Alike (.parse e) (.parse e')
  | semantic {e e' : SemanticError} (hfault : e.fault = e'.fault) (hspan : e.span.isSome = e'.span.isSome) :
      Alike (.semantic e) (.semantic e')
  | emission {e e' : EmissionError} (hfault : e.fault = e'.fault) (hspan : e.span.isSome = e'.span.isSome) :
      Alike (.emission e) (.emission e')

/-- Ends of compilations that differ in places only: with the same output, or with the same complaint. -/
inductive Compilation.EndsAlike : Except CompileError Compilation → Except CompileError Compilation → Prop
  | ok {c c' : Compilation} (hmodule : c.module = c'.module) (hstats : c.stats = c'.stats)
      (hsymbols : c.analysis.symbols = c'.analysis.symbols) (htypes : c.analysis.types = c'.analysis.types)
      (hfunctions : c.analysis.functions.unplaced = c'.analysis.functions.unplaced) : EndsAlike (.ok c) (.ok c')
  | error {e e' : CompileError} (halike : e.Alike e') (hmessage : e.message = e'.message) :
      EndsAlike (.error e) (.error e')

theorem ParseError.message_unplaced (e : ParseError) : e.unplaced.message = e.message := by
  obtain ⟨fault, t⟩ := e
  cases fault <;> rfl

theorem ParseError.category_unplaced (e : ParseError) : e.unplaced.category = e.category := by
  obtain ⟨fault, t⟩ := e
  cases fault <;> rfl

theorem ParseError.found_unplaced (e : ParseError) : e.unplaced.found = e.found := by
  obtain ⟨fault, t⟩ := e
  cases fault <;> rfl

namespace Compilation.EndsAlike

theorem parse {e e' : ParseError} (h : e.unplaced = e'.unplaced) :
    EndsAlike (.error (.parse e)) (.error (.parse e')) := by
  have hfault : e.unplaced.fault = e'.unplaced.fault := congrArg ParseError.fault h
  have htoken : e.unplaced.token = e'.unplaced.token := congrArg ParseError.token h
  refine .error (.parse hfault htoken ?_ ?_) ?_
  · rw [← e.category_unplaced, h, e'.category_unplaced]
  · rw [← e.found_unplaced, h, e'.found_unplaced]
  · show e.message = e'.message
    rw [← e.message_unplaced, h, e'.message_unplaced]

theorem semantic {e e' : SemanticError} (h : e.unplaced = e'.unplaced) :
    EndsAlike (.error (.semantic e)) (.error (.semantic e')) := by
  have hfault : e.unplaced.fault = e'.unplaced.fault := congrArg SemanticError.fault h
  have hspan := congrArg (fun e => e.span.isSome) h
  simp only [SemanticError.unplaced, Option.isSome_map] at hspan
  exact .error (.semantic hfault hspan) (congrArg SemanticFault.message hfault)

theorem emission {e e' : EmissionError} (h : e.unplaced = e'.unplaced) :
    EndsAlike (.error (.emission e)) (.error (.emission e')) := by
  have hfault : e.unplaced.fault = e'.unplaced.fault := congrArg EmissionError.fault h
  have hspan := congrArg (fun e => e.span.isSome) h
  simp only [EmissionError.unplaced, Option.isSome_map] at hspan
  exact .error (.emission hfault hspan) (congrArg EmissionFault.message hfault)

end Compilation.EndsAlike

/-! ## Stages -/

/-- Outcomes that are the same without places are both errors or both values. -/
theorem cases_of_unplaced {ε α : Type} {f : α → α} {g : ε → ε} {r r' : Except ε α}
    (h : (r.map f).mapError g = (r'.map f).mapError g) :
    (∃ e e', r = .error e ∧ r' = .error e' ∧ g e = g e') ∨ ∃ a a', r = .ok a ∧ r' = .ok a' ∧ f a = f a' := by
  cases r with
  | error e =>
    cases r' with
    | error e' => exact .inl ⟨e, e', rfl, rfl, Except.error.inj h⟩
    | ok a' => cases h
  | ok a =>
    cases r' with
    | error e' => cases h
    | ok a' => exact .inr ⟨a, a', rfl, rfl, Except.ok.inj h⟩

theorem whole_alike {ts us : List Token} (h : SameText ts us) :
    unplacedProgram (Parser.ofTokens ts).whole = unplacedProgram (Parser.ofTokens us).whole := by
  rw [← Parser.whole_unplaced, ← Parser.whole_unplaced, Parser.unplaced_ofTokens h]

theorem analyze_alike_of_unplaced {p p' : Program} (h : p.unplaced = p'.unplaced) :
    unplacedAnalysis (analyze .runtime p) = unplacedAnalysis (analyze .runtime p') := by
  rw [← analyze_unplaced, ← analyze_unplaced, h]

theorem generate_alike_of_unplaced {p p' : Program} {a a' : Analysis} (hp : p.unplaced = p'.unplaced)
    (ha : a.unplaced = a'.unplaced) :
    ((generate a p).map id).mapError EmissionError.unplaced =
      ((generate a' p').map id).mapError EmissionError.unplaced := by
  rw [Except.map_id, id, id, ← generate_unplaced, ← generate_unplaced, hp, ha]

/-- **Layout does not leak into the output.** Two sources with the same tokens, apart from where they stand, are
compiled to the same module with the same tables, or are rejected in the same stage with the same complaint. -/
theorem compile_alike {source source' : String} (h : (scan source).errors = []) (h' : (scan source').errors = [])
    (hsame : SameText (scan source).tokens (scan source').tokens) (options : CompileOptions) :
    Compilation.EndsAlike (compile source options) (compile source' options) := by
  rw [compile, compile, parseProgram_eq_whole h, parseProgram_eq_whole h']
  obtain ⟨e, e', hr, hr', he⟩ | ⟨p, p', hr, hr', hp⟩ := cases_of_unplaced (whole_alike hsame)
  · rw [hr, hr']
    exact .parse he
  rw [hr, hr']
  dsimp only [Except.mapError]
  obtain ⟨e, e', hr, hr', he⟩ | ⟨a, a', hr, hr', ha⟩ := cases_of_unplaced (analyze_alike_of_unplaced hp)
  · rw [hr, hr']
    exact .semantic he
  rw [hr, hr']
  dsimp only
  obtain ⟨e, e', hr, hr', he⟩ | ⟨m, m', hr, hr', hm⟩ := cases_of_unplaced (generate_alike_of_unplaced hp ha)
  · rw [hr, hr']
    exact .emission he
  rw [hr, hr']
  obtain rfl : m = m' := hm
  have hsymbols : a.unplaced.symbols = a'.unplaced.symbols := by rw [ha]
  have htypes : a.unplaced.types = a'.unplaced.types := by rw [ha]
  have hfunctions : a.unplaced.functions = a'.unplaced.functions := by rw [ha]
  dsimp only
  split
  · exact .ok rfl rfl hsymbols htypes hfunctions
  · exact .ok rfl rfl hsymbols htypes hfunctions

theorem compile_alike_lines :
    (scan "int main()\x7breturn 7;\x7d").errors = [] ∧ (scan "int main() // 7\n\x7b\n\treturn 7;\n\x7d").errors = [] ∧
      SameText (scan "int main()\x7breturn 7;\x7d").tokens (scan "int main() // 7\n\x7b\n\treturn 7;\n\x7d").tokens ∧
      Compilation.EndsAlike (compile "int main()\x7breturn 7;\x7d") (compile "int main() // 7\n\x7b\n\treturn 7;\n\x7d") := by
  have h : (scan "int main()\x7breturn 7;\x7d").errors = [] := by decide +kernel
  have h' : (scan "int main() // 7\n\x7b\n\treturn 7;\n\x7d").errors = [] := by decide +kernel
  have hsame : SameText (scan "int main()\x7breturn 7;\x7d").tokens
      (scan "int main() // 7\n\x7b\n\treturn 7;\n\x7d").tokens := by
    decide +kernel
  exact ⟨h, h', hsame, compile_alike h h' hsame {}⟩

end MicroC
