import MicroC.Analysis.Error
import MicroC.Table

/-!
# Signatures of functions

The functions of a program and those the runtime provides, each with the types of its parameters
and its result. Bodies are not looked at, so a call may come before the function it names.

* `FunctionTable.runtime`: the functions that are always there.
* `declareFunctions`: adds the functions of a program.
-/

namespace MicroC

/-- The types of a function's parameters and result. -/
structure Signature where
  name : String
  params : List Ty
  returns : Ty
  /-- Where the function is declared. The runtime's functions are declared nowhere. -/
  span : Option Span := none
deriving DecidableEq, Repr

namespace Signature

/-- Whether the runtime provides the function. -/
def isIntrinsic (s : Signature) : Bool := s.span.isNone

def text (s : Signature) : String :=
  s.name ++ "(" ++ ", ".intercalate (s.params.map Ty.text) ++ ") -> " ++ s.returns.text

end Signature

/-- Signatures by the name of the function. -/
abbrev FunctionTable := Table String Signature

namespace FunctionTable

/-- Adds a signature. A name that is in use cannot be defined again. -/
def declare (s : Signature) (t : FunctionTable) : Except SemanticError FunctionTable :=
  if t.contains s.name then .error ⟨.functionRedefinition s.name, s.span⟩
  else .ok (t.insert s.name s)

/-- The functions that the runtime provides. -/
def runtime : FunctionTable :=
  [⟨"print", [.int], .void, none⟩,
    ⟨"read", [], .int, none⟩,
    ⟨"print8", List.replicate 8 .int, .void, none⟩,
    ⟨"sum8", List.replicate 8 .int, .int, none⟩,
    ⟨"print_f", [.float], .void, none⟩,
    ⟨"print_s", [.string], .void, none⟩,
    (⟨"read_f", [], .float, none⟩ : Signature)].foldl (fun t s => t.insert s.name s) .empty

/-- One line for each function, in the order of their names. -/
def text (t : FunctionTable) : String :=
  String.join (t.entries.map fun e => e.2.text ++ "\n")

end FunctionTable

/-- The types that names spell. -/
def scalarTypes : List Ident → Pass FunctionTable (List Ty)
  | [] => pure []
  | n :: ns => do
    let s ← scalarOf n
    let ss ← scalarTypes ns
    return .scalar s :: ss

/-- Adds one function: first its parameters' types are looked up, then its result's. -/
def declareFunction (f : Func) : Pass FunctionTable Unit := do
  let params ← scalarTypes (f.params.map Binder.type)
  let returns ← scalarOf f.returns
  match (← get).declare ⟨f.name.name, params, .scalar returns, some f.name.span⟩ with
  | .ok t => set t
  | .error e => throw e

/-- Adds the functions of a program in order. -/
def declareFunctions : List Func → Pass FunctionTable Unit
  | [] => pure ()
  | f :: fs => do
    declareFunction f
    declareFunctions fs

end MicroC
