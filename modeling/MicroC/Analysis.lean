import MicroC.Analysis.Typing

/-!
# Analysis

Three passes over a program, each of which fills one table: signatures, scopes, types. The first
error ends the analysis.
-/

namespace MicroC

/-- What the analysis found out about a program. -/
structure Analysis where
  functions : FunctionTable
  symbols : SymbolTable
  types : TypeTable

/-- Analyses a program on top of the functions that exist already. -/
def analyze (functions : FunctionTable) (p : Program) : Except SemanticError Analysis :=
  match (declareFunctions p.functions).run functions with
  | (.error e, _) => .error e
  | (.ok (), functions) =>
    match (resolve p.functions).run .empty with
    | (.error e, _) => .error e
    | (.ok (), symbols) =>
      match (typeProgram ⟨functions, symbols⟩ p.functions).run .empty with
      | (.error e, _) => .error e
      | (.ok (), types) => .ok ⟨functions, symbols, types⟩

end MicroC
