import MicroC.Ast.Drawing
import MicroC.Emission.Program
import MicroC.Machine.Run
import MicroC.Parser.Program
import MicroC.Peephole

/-!
# Compiling a source text

A source is scanned and parsed, analysed, turned into code and optimised, each to the end before the
next; the first of these that finds an error ends the compilation.

* `compile`: compiles a source.
* `Compilation.run`: runs what was compiled.
-/

namespace MicroC

/-! ## Errors -/

/-- Why a source does not compile. -/
inductive CompileError
  | lex (errors : List LexError)
  | parse (error : ParseError)
  | semantic (error : SemanticError)
  | emission (error : EmissionError)
deriving DecidableEq, Repr

namespace CompileError

/-- The place of the first error, if it has one. -/
def span? : CompileError → Option Span
  | .lex es => es.head?.map LexError.span
  | .parse e => some e.span
  | .semantic e => e.span
  | .emission e => e.span

def message : CompileError → String
  | .lex es => LexError.batchText es
  | .parse e => e.message
  | .semantic e => e.message
  | .emission e => e.message

/-- What the user is told, one diagnostic for each error. -/
def diagnostics : CompileError → List Diagnostic
  | .lex es => es.map LexError.diagnostic
  | .parse e => [⟨some e.span, e.message⟩]
  | .semantic e => [⟨e.span, e.message⟩]
  | .emission e => [⟨e.span, e.message⟩]

/-- All diagnostics with the source lines they point at. -/
def render (source : String) (e : CompileError) : String :=
  String.join (e.diagnostics.map (·.render source))

/-- An error of reading as an error of compiling. -/
def ofReadError : ReadError → CompileError
  | .lex es => .lex es
  | .parse e => .parse e

end CompileError

/-- What the user is told about a failed run. -/
def MachineError.render (e : MachineError) : String :=
  Diagnostic.render "" ⟨none, "runtime error: " ++ e.message⟩

/-! ## Compilations -/

/-- How to compile. -/
structure CompileOptions where
  /-- Whether the optimiser runs. -/
  optimise : Bool := true
  reductions : Reductions := .all
  /-- How to draw the program, if at all. -/
  treeStyle : Option TreeStyle := none
deriving DecidableEq, Repr

/-- What a compilation yields. -/
structure Compilation where
  tree : Option String
  analysis : Analysis
  module : Module
  /-- What the optimiser did, if it ran. -/
  stats : Option Stats

/-- Compiles a source. -/
def compile (source : String) (options : CompileOptions := {}) : Except CompileError Compilation :=
  match parseProgram source with
  | .error e => .error (.ofReadError e)
  | .ok program =>
    match analyze .runtime program with
    | .error e => .error (.semantic e)
    | .ok analysis =>
      match generate analysis program with
      | .error e => .error (.emission e)
      | .ok module =>
        let tree := options.treeStyle.map fun style => program.draw style
        if options.optimise then
          let (module, stats) := module.optimise options.reductions
          .ok { tree, analysis, module, stats := some stats }
        else .ok { tree, analysis, module, stats := none }

namespace Compilation

/-- The function that a compiled program starts in. -/
def entryPoint : String := "main"

/-- The assembler text. -/
def assembly (c : Compilation) : String := c.module.listing

/-- Runs the program: its result, and the host after the run. -/
def run {σ : Type} [Host σ] (c : Compilation) (host : σ) : Except MachineError Int64 × σ :=
  match Machine.ofModule c.module host with
  | .error e => (.error e, host)
  | .ok m =>
    let (result, m) := m.run entryPoint
    (result, m.host)

end Compilation

end MicroC
